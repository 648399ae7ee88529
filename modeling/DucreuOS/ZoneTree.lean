import DucreuOS.Library.CursorSearch
import DucreuOS.Library.PlacedTree
import DucreuOS.ZoneWalker

/-! # Growing the zones of a file

What the zone allocator hands out, what a new pointer block and a new pointer do to the tree of a
file, and `minix3_set_zone_to`, which renews the pointer blocks that start at its index. -/
namespace Minix3

open ByteMemory PlacedTree

/-! ## Zones of the device -/

section Layout

variable {bs : ℕ} {disk disk' : Mem} {zone w : Word}

/-- The first byte behind the fields of the superblock that are read. -/
def superEnd : ℕ := MX3_BOOT_BLOCK_SIZE + 24

/-- The first byte behind the zone bitmap. -/
def zmapEnd (bs : ℕ) (disk : Mem) : ℕ :=
  (getSuperblock disk).zmapStart bs + ((getSuperblock disk).numZones.toNat + 7) / 8

/-- The first byte of the first data zone. -/
def dataStart (bs : ℕ) (disk : Mem) : ℕ := (getSuperblock disk).firstZone.toNat * bs

/-- The zone bitmap lies between the superblock and the zones, and 32 bits address every zone. -/
structure ZoneLayout (bs : ℕ) (disk : Mem) : Prop where
  whole : 4 ∣ bs
  pos : 0 < bs
  super : superEnd ≤ (getSuperblock disk).zmapStart bs
  bitmap : zmapEnd bs disk ≤ dataStart bs disk
  addressed :
    ((getSuperblock disk).firstZone.toNat + (getSuperblock disk).numZones.toNat) * bs ≤ 2 ^ 32

/-- A zone of the device that the bitmap marks. -/
def Marked (bs : ℕ) (disk : Mem) (zone : Word) : Prop :=
  isZoneInRange disk zone = true ∧ isZoneOccupied bs disk zone = true

/-- `x` is a byte of the zone. -/
def InZone (bs : ℕ) (zone : Word) (x : ℕ) : Prop := baddr bs zone ≤ x ∧ x < baddr bs zone + bs

theorem inRange_iff : isZoneInRange disk zone = true ↔
    (getSuperblock disk).firstZone.toNat ≤ zone.toNat ∧
      zone.toNat < (getSuperblock disk).firstZone.toNat + (getSuperblock disk).numZones.toNat := by
  unfold isZoneInRange
  simp only [Bool.and_eq_true, decide_eq_true_eq, Bool.not_eq_true', decide_eq_false_iff_not,
    BitVec.lt_def, BitVec.toNat_sub]
  have := zone.isLt
  have := (getSuperblock disk).firstZone.isLt
  omega

theorem inRange_sub (h : isZoneInRange disk zone = true) :
    (zone - (getSuperblock disk).firstZone).toNat
      = zone.toNat - (getSuperblock disk).firstZone.toNat := by
  have h' := (inRange_iff.mp h).1
  have := zone.isLt
  rw [BitVec.toNat_sub]
  omega

theorem occupied_inRange (h : isZoneInRange disk zone = true) : isZoneOccupied bs disk zone
    = bitAt disk ((getSuperblock disk).zmapStart bs)
      (zone.toNat - (getSuperblock disk).firstZone.toNat) := by
  have h' := (inRange_iff.mp h).1
  have hlt : ¬ zone < (getSuperblock disk).firstZone := by
    rw [BitVec.lt_def]
    omega
  unfold isZoneOccupied
  simp [hlt, inRange_sub h]

/-- Different zones have no byte in common. -/
theorem inZone_unique {x : ℕ} (h : InZone bs zone x) (h' : InZone bs w x) : zone = w := by
  unfold InZone baddr at h h'
  have hdiv : ∀ z : Word, z.toNat * bs ≤ x → x < z.toNat * bs + bs → x / bs = z.toNat := by
    intro z hz hz'
    rw [Nat.div_eq_of_lt_le hz (by rw [Nat.add_mul, Nat.one_mul]; exact hz')]
  apply BitVec.eq_of_toNat_eq
  rw [← hdiv zone h.1 h.2, ← hdiv w h'.1 h'.2]

namespace ZoneLayout

theorem first_pos (hl : ZoneLayout bs disk) : 0 < (getSuperblock disk).firstZone.toNat := by
  have h := hl.super.trans ((Nat.le_add_right _ _).trans hl.bitmap)
  unfold dataStart superEnd MX3_BOOT_BLOCK_SIZE at h
  by_contra hz
  rw [show (getSuperblock disk).firstZone.toNat = 0 by omega] at h
  omega

theorem ne_zero (hl : ZoneLayout bs disk) (h : isZoneInRange disk zone = true) : zone ≠ 0 := by
  rintro rfl
  have hle : (getSuperblock disk).firstZone.toNat ≤ 0 := (inRange_iff.mp h).1
  have := hl.first_pos
  omega

theorem dataStart_le (bs : ℕ) (h : isZoneInRange disk zone = true) : dataStart bs disk ≤ baddr bs zone :=
  Nat.mul_le_mul_right bs (inRange_iff.mp h).1

theorem zone_end (hl : ZoneLayout bs disk) (h : isZoneInRange disk zone = true) :
    baddr bs zone + bs ≤ 2 ^ 32 := by
  refine le_trans ?_ hl.addressed
  have hle : (zone.toNat + 1) * bs ≤ ((getSuperblock disk).firstZone.toNat
      + (getSuperblock disk).numZones.toNat) * bs := Nat.mul_le_mul_right bs (inRange_iff.mp h).2
  unfold baddr
  rw [Nat.add_mul, Nat.one_mul] at hle
  exact hle

theorem baddr_lt (hl : ZoneLayout bs disk) (h : isZoneInRange disk zone = true) :
    baddr bs zone < 2 ^ 32 := by
  have := hl.zone_end h
  have := hl.pos
  omega

/-- The bitmap byte of a zone of the device. -/
theorem bit_lt (bs : ℕ) (h : isZoneInRange disk zone = true) :
    (getSuperblock disk).zmapStart bs
      + (zone.toNat - (getSuperblock disk).firstZone.toNat) / 8 < zmapEnd bs disk := by
  have h' := inRange_iff.mp h
  unfold zmapEnd
  omega

end ZoneLayout

/-- The superblock is read from bytes in front of `superEnd`. -/
theorem getSuperblock_congr (h : ∀ x < superEnd, disk' x = disk x) :
    getSuperblock disk' = getSuperblock disk := by
  have h' : ∀ a n, a + n ≤ superEnd → ∀ i < n, disk' (a + i) = disk (a + i) :=
    fun a n han i hi => h (a + i) (by omega)
  unfold getSuperblock
  congr 1
  · exact load32_congr (h' _ 4 (by decide))
  · exact load16_congr (h' _ 2 (by decide))
  · exact load16_congr (h' _ 2 (by decide))
  · exact load16_congr (h' _ 2 (by decide))
  · exact load32_congr (h' _ 4 (by decide))

end Layout

/-! ## The zone allocator -/

section Allocator

variable {bs : ℕ} {disk disk' : Mem} {zone : Word} {fs fs' : Fs}

/-- Zone 0 is in front of the first data zone. -/
theorem zero_occupied (h : 0 < (getSuperblock disk).firstZone.toNat) :
    isZoneOccupied bs disk 0 = true := by
  have hlt : (0 : Word) < (getSuperblock disk).firstZone := h
  simp only [isZoneOccupied, decide_eq_true hlt, Bool.true_or]

theorem availableZoneFrom_eq (bs : ℕ) (disk : Mem) (n : ℕ) (cursor : Word) :
    availableZoneFrom bs disk n cursor
      = CursorSearch.search (isZoneInRange disk) (isZoneOccupied bs disk) 0 n cursor := by
  induction n generalizing cursor with
  | zero => rfl
  | succ n ih => simp only [availableZoneFrom, CursorSearch.search, ih]

/-- The zone the search ends at is free, and lies on the device unless a reset of the cursor
reaches a free zone 0 that does not. -/
theorem availableZoneFrom_spec
    (hzero : isZoneInRange disk 0 = true ∨ isZoneOccupied bs disk 0 = true) (n : ℕ) (cursor : Word)
    (h : availableZoneFrom bs disk n cursor = some zone) :
    isZoneInRange disk zone = true ∧ isZoneOccupied bs disk zone = false := by
  rw [availableZoneFrom_eq] at h
  exact CursorSearch.search_spec hzero n h

/-- The search from a cursor on the device ends at the first free zone ahead of it. -/
theorem availableZoneFrom_ahead {cursor : Word} (n : ℕ)
    (hc : (getSuperblock disk).firstZone.toNat ≤ cursor.toNat) (hle : cursor.toNat ≤ zone.toNat)
    (hr : isZoneInRange disk zone = true) (hfree : isZoneOccupied bs disk zone = false)
    (hn : zone.toNat - cursor.toNat < n) :
    ∃ z, availableZoneFrom bs disk n cursor = some z ∧ cursor.toNat ≤ z.toNat ∧
      z.toNat ≤ zone.toNat ∧
      ∀ y : Word, cursor.toNat ≤ y.toNat → y.toNat < z.toNat → isZoneOccupied bs disk y = true := by
  rw [availableZoneFrom_eq]
  have hlast := inRange_iff.mp hr
  have hrange (y : Word) (hcy : cursor.toNat ≤ y.toNat) (hyz : y.toNat ≤ zone.toNat) :
      isZoneInRange disk y = true := inRange_iff.mpr ⟨by omega, by omega⟩
  exact CursorSearch.search_ahead n hrange hle hfree hn

/-- A zone taken from the allocator: free before, marked and zeroed now. -/
structure Taken (bs : ℕ) (disk disk' : Mem) (zone : Word) : Prop where
  range : isZoneInRange disk zone = true
  free : isZoneOccupied bs disk zone = false
  zeroed : ∀ x, InZone bs zone x → disk' x = 0
  rest : ∀ x, ¬ InZone bs zone x → disk' x
    = setBit disk ((getSuperblock disk).zmapStart bs)
      (zone.toNat - (getSuperblock disk).firstZone.toNat) x

/-- Where the next search begins. -/
def searchStart (fs : Fs) : Word :=
  if fs.zoneCursor = 0 then (getSuperblock fs.disk).firstZone else fs.zoneCursor

/-- A byte behind the bitmap is no byte of the superblock or of the bitmap. -/
theorem bitmap_byte_lt (hl : ZoneLayout bs disk) (h : isZoneInRange disk zone = true) :
    (getSuperblock disk).zmapStart bs
      + (zone.toNat - (getSuperblock disk).firstZone.toNat) / 8 < dataStart bs disk :=
  (ZoneLayout.bit_lt bs h).trans_le hl.bitmap

theorem fill_zone {x : ℕ} (hx : x < dataStart bs disk) (h : isZoneInRange disk zone = true) :
    fill disk (baddr bs zone) bs 0 x = disk x :=
  blit_outside (Or.inl (hx.trans_le (ZoneLayout.dataStart_le bs h)))

theorem fill_super (hl : ZoneLayout bs disk) (h : isZoneInRange disk zone = true) :
    getSuperblock (fill disk (baddr bs zone) bs 0) = getSuperblock disk :=
  getSuperblock_congr fun _ hx => fill_zone
    (hx.trans_le (hl.super.trans ((Nat.le_add_right _ _).trans hl.bitmap))) h

/-- A free zone, zeroed and then marked. -/
theorem Taken.of_free (hl : ZoneLayout bs disk) (hr : isZoneInRange disk zone = true)
    (hfree : isZoneOccupied bs disk zone = false) :
    Taken bs disk (setZoneOccupied bs (setZoneToZero bs disk zone) zone) zone := by
  have hbit := bitmap_byte_lt hl hr
  have hzone := ZoneLayout.dataStart_le bs hr
  have hset : setZoneOccupied bs (setZoneToZero bs disk zone) zone
      = setBit (fill disk (baddr bs zone) bs 0) ((getSuperblock disk).zmapStart bs)
        (zone.toNat - (getSuperblock disk).firstZone.toNat) := by
    have hsuper := fill_super hl hr
    have hrange : isZoneInRange (fill disk (baddr bs zone) bs 0) zone = true := by
      unfold isZoneInRange at hr ⊢
      rwa [hsuper]
    have hocc : isZoneOccupied bs (fill disk (baddr bs zone) bs 0) zone = false := by
      rw [occupied_inRange hrange, hsuper, bitAt_congr (fill_zone hbit hr), ← occupied_inRange hr]
      exact hfree
    have hge : ¬ zone < (getSuperblock disk).firstZone := by
      rw [BitVec.lt_def]
      exact not_lt.mpr (inRange_iff.mp hr).1
    unfold setZoneOccupied setZoneAs setZoneToZero
    rw [baddr32_eq (hl.baddr_lt hr)]
    simp only [hsuper, hge, hocc, hrange, if_false, if_true, Bool.not_true, Bool.false_eq_true,
      inRange_sub hr]
  rw [hset]
  refine ⟨hr, hfree, fun x hx => ?_, fun x hx => ?_⟩
  · rw [setBit_apart (by unfold InZone at hx; omega), fill, blit_inside hx.1 hx.2]
  · have hout : fill disk (baddr bs zone) bs 0 x = disk x := blit_outside (by unfold InZone at hx; omega)
    by_cases hx' : x = (getSuperblock disk).zmapStart bs
        + (zone.toNat - (getSuperblock disk).firstZone.toNat) / 8
    · subst hx'
      simp only [setBit, Function.update_self, hout]
    · rw [setBit_apart hx', setBit_apart hx', hout]

theorem Taken.super (ht : Taken bs disk disk' zone) (hl : ZoneLayout bs disk) :
    getSuperblock disk' = getSuperblock disk := by
  have hzone := ZoneLayout.dataStart_le bs ht.range
  have hend := hl.super.trans ((Nat.le_add_right _ _).trans hl.bitmap)
  refine getSuperblock_congr fun x hx => ?_
  have hsuper := hl.super
  rw [ht.rest x (by unfold InZone; omega), setBit_apart (by omega)]

/-- Writing the zeroes once more. -/
theorem Taken.zero (ht : Taken bs disk disk' zone) (hl : ZoneLayout bs disk) :
    Taken bs disk (setZoneToZero bs disk' zone) zone := by
  have haddr := baddr32_eq (hl.baddr_lt ht.range)
  refine ⟨ht.range, ht.free, fun x hx => ?_, fun x hx => ?_⟩
  · rw [setZoneToZero, haddr, fill, blit_inside hx.1 hx.2]
  · rw [setZoneToZero, haddr, fill, blit_outside (by unfold InZone at hx; omega), ht.rest x hx]

theorem getAvailableZone_some (hl : ZoneLayout bs fs.disk)
    (h : getAvailableZone bs fs = some (fs', zone)) :
    isZoneInRange fs.disk zone = true ∧ isZoneOccupied bs fs.disk zone = false ∧
      fs' = { fs with disk := setZoneToZero bs fs.disk zone, zoneCursor := zone } := by
  unfold getAvailableZone at h
  obtain ⟨z, hz, he⟩ := Option.map_eq_some_iff.mp h
  obtain ⟨rfl, rfl⟩ := Prod.mk.inj he
  obtain ⟨hr, hfree⟩ := availableZoneFrom_spec (Or.inr (zero_occupied hl.first_pos)) _ _ hz
  exact ⟨hr, hfree, rfl⟩

/-- A new pointer block. -/
theorem freshBlock_taken (hl : ZoneLayout bs fs.disk) (h : freshBlock bs fs = .ok (fs', zone)) :
    Taken bs fs.disk fs'.disk zone ∧ fs'.zoneCursor = zone ∧ fs'.inodeCursor = fs.inodeCursor := by
  unfold freshBlock at h
  split at h
  · cases h
  · rename_i fs₁ z hz
    obtain ⟨hr, hfree, rfl⟩ := getAvailableZone_some hl hz
    obtain ⟨rfl, rfl⟩ := Prod.mk.inj (Except.ok.inj h)
    exact ⟨(Taken.of_free hl hr hfree).zero hl, rfl, rfl⟩

end Allocator

/-! ## What a file operation leaves alone -/

section Extends

variable {bs : ℕ} {disk disk₁ disk₂ : Mem} {W W₁ W₂ : Set Word} {zone : Word}

/-- Only zones of `W` and zones that were free are written, and no mark is taken away. -/
structure Extends (bs : ℕ) (W : Set Word) (disk disk' : Mem) : Prop where
  metadata : ∀ x < dataStart bs disk,
    x < (getSuperblock disk).zmapStart bs ∨ zmapEnd bs disk ≤ x → disk' x = disk x
  zones : ∀ z, Marked bs disk z → z ∉ W → ∀ x, InZone bs z x → disk' x = disk x
  marks : ∀ z, Marked bs disk z → Marked bs disk' z

namespace Extends

theorem refl (bs : ℕ) (disk : Mem) : Extends bs ∅ disk disk :=
  ⟨fun _ _ _ => rfl, fun _ _ _ _ _ => rfl, fun _ h => h⟩

theorem super (he : Extends bs W disk disk₁) (hl : ZoneLayout bs disk) :
    getSuperblock disk₁ = getSuperblock disk := by
  have hend := (Nat.le_add_right _ _).trans hl.bitmap
  exact getSuperblock_congr fun x hx =>
    he.metadata x (hx.trans_le (hl.super.trans hend)) (Or.inl (hx.trans_le hl.super))

theorem layout (he : Extends bs W disk disk₁) (hl : ZoneLayout bs disk) : ZoneLayout bs disk₁ := by
  have hs := he.super hl
  constructor
  · exact hl.whole
  · exact hl.pos
  · rw [hs]
    exact hl.super
  · unfold zmapEnd dataStart
    rw [hs]
    exact hl.bitmap
  · rw [hs]
    exact hl.addressed

theorem trans (h₁ : Extends bs W₁ disk disk₁) (h₂ : Extends bs W₂ disk₁ disk₂)
    (hl : ZoneLayout bs disk) : Extends bs (W₁ ∪ W₂) disk disk₂ := by
  have hs := h₁.super hl
  refine ⟨fun x hx hout => ?_, fun z hz hw x hx => ?_, fun z hz => h₂.marks z (h₁.marks z hz)⟩
  · rw [← h₁.metadata x hx hout]
    apply h₂.metadata
    · unfold dataStart
      rw [hs]
      exact hx
    · unfold zmapEnd
      rw [hs]
      exact hout
  · rw [← h₁.zones z hz (fun h => hw (Or.inl h)) x hx]
    exact h₂.zones z (h₁.marks z hz) (fun h => hw (Or.inr h)) x hx

theorem mono (h : Extends bs W₁ disk disk₁) (hw : W₁ ⊆ W₂) : Extends bs W₂ disk disk₁ :=
  ⟨h.metadata, fun z hz hz' => h.zones z hz fun h' => hz' (hw h'), h.marks⟩

end Extends

/-- A marked zone keeps its bytes and its mark when another zone is taken. -/
theorem Taken.marked_iff (ht : Taken bs disk disk₁ zone) (hl : ZoneLayout bs disk) (z : Word) :
    Marked bs disk₁ z ↔ z = zone ∨ Marked bs disk z := by
  have hs := ht.super hl
  have hrange : isZoneInRange disk₁ z = isZoneInRange disk z := by
    unfold isZoneInRange
    rw [hs]
  unfold Marked
  rw [hrange]
  by_cases hr : isZoneInRange disk z = true
  · have hbyte := bitmap_byte_lt hl hr
    have hzone := ZoneLayout.dataStart_le bs ht.range
    have hz := inRange_iff.mp hr
    have hz' := inRange_iff.mp ht.range
    rw [occupied_inRange (hrange ▸ hr), occupied_inRange hr, hs,
      bitAt_congr (ht.rest _ (by unfold InZone; omega)), bitAt_setBit]
    have hiff : z.toNat - (getSuperblock disk).firstZone.toNat
        = zone.toNat - (getSuperblock disk).firstZone.toNat ↔ z = zone := by
      constructor
      · exact fun h => BitVec.eq_of_toNat_eq (by omega)
      · rintro rfl
        rfl
    simp [hr, hiff]
  · have hne : z ≠ zone := by
      rintro rfl
      exact hr ht.range
    simp [hr, hne]

theorem Taken.not_marked (ht : Taken bs disk disk₁ zone) : ¬ Marked bs disk zone := fun h => by
  rw [Marked, ht.free] at h
  cases h.2

theorem Taken.extends (ht : Taken bs disk disk₁ zone) (hl : ZoneLayout bs disk) :
    Extends bs ∅ disk disk₁ := by
  have hzone := ZoneLayout.dataStart_le bs ht.range
  have hbit := ZoneLayout.bit_lt bs ht.range
  refine ⟨fun x hx hout => ?_, fun z hz _ x hx => ?_, fun z hz => ?_⟩
  · rw [ht.rest x (by unfold InZone; omega), setBit_apart (by omega)]
  · have hne : z ≠ zone := by
      rintro rfl
      exact ht.not_marked hz
    have hdata := (ZoneLayout.dataStart_le bs hz.1).trans hx.1
    have hend := hl.bitmap
    rw [ht.rest x fun hx' => hne (inZone_unique hx hx'), setBit_apart (by omega)]
  · exact (ht.marked_iff hl z).mpr (Or.inr hz)

/-- Bytes written inside a zone of the device. -/
theorem Extends.of_write {disk₁ : Mem} (hl : ZoneLayout bs disk) (hr : isZoneInRange disk zone = true)
    (h : ∀ x, ¬ InZone bs zone x → disk₁ x = disk x) : Extends bs {zone} disk disk₁ := by
  have hzone := ZoneLayout.dataStart_le bs hr
  have hlow : ∀ x < dataStart bs disk, disk₁ x = disk x :=
    fun x hx => h x (by unfold InZone; omega)
  have hs : getSuperblock disk₁ = getSuperblock disk := getSuperblock_congr fun x hx =>
    hlow x (hx.trans_le (hl.super.trans ((Nat.le_add_right _ _).trans hl.bitmap)))
  refine ⟨fun x hx _ => hlow x hx, fun z _ hne x hx => ?_, fun z hz => ?_⟩
  · exact h x fun hx' => hne (inZone_unique hx hx')
  · have hrange : isZoneInRange disk₁ z = true := by
      unfold isZoneInRange
      rw [hs]
      exact hz.1
    refine ⟨hrange, ?_⟩
    rw [occupied_inRange hrange, hs, bitAt_congr (hlow _ (bitmap_byte_lt hl hz.1)),
      ← occupied_inRange hz.1]
    exact hz.2

end Extends

/-! ## The places of the pointer tree -/

section Places

/-- Where the zone of a place is written down. -/
def Node.place (bs : ℕ) : Node → Place Node (Fin 10) ℕ
  | .data j =>
    if j < 7 then .root (Fin.ofNat 10 j) else .slot (.block ((j - 7) / ppz bs)) ((j - 7) % ppz bs)
  | .block b =>
    if b = 0 then .root MX3_IDZONE
    else if b ≤ ppz bs then .slot .doubly (b - 1)
    else .slot (.second ((b - 1 - ppz bs) / ppz bs)) ((b - 1 - ppz bs) % ppz bs)
  | .doubly => .root MX3_IIDZONE
  | .triply => .root MX3_IIIDZONE
  | .second l => .slot .triply l

def Node.rank : Node → ℕ
  | .data _ => 3
  | .block _ => 2
  | .second _ => 1
  | _ => 0

/-- The slots that hold a place, by kind. -/
theorem place_slot {bs : ℕ} {n p : Node} {s : ℕ} (h : n.place bs = .slot p s) :
    (∃ j, 7 ≤ j ∧ n = .data j ∧ p = .block ((j - 7) / ppz bs) ∧ s = (j - 7) % ppz bs) ∨
    (∃ k < ppz bs, n = .block (1 + k) ∧ p = .doubly ∧ s = k) ∨
    (∃ m, n = .block (1 + ppz bs + m) ∧ p = .second (m / ppz bs) ∧ s = m % ppz bs) ∨
    (∃ l, n = .second l ∧ p = .triply ∧ s = l) := by
  cases n with
  | data j =>
    simp only [Node.place] at h
    split at h
    · cases h
    · obtain ⟨rfl, rfl⟩ := Place.slot.inj h
      exact Or.inl ⟨j, by omega, rfl, rfl, rfl⟩
  | block b =>
    simp only [Node.place] at h
    split at h
    · cases h
    · split at h
      · obtain ⟨rfl, rfl⟩ := Place.slot.inj h
        exact Or.inr (Or.inl ⟨b - 1, by omega, by rw [Nat.add_sub_cancel' (by omega)], rfl, rfl⟩)
      · obtain ⟨rfl, rfl⟩ := Place.slot.inj h
        exact Or.inr (Or.inr (Or.inl ⟨b - 1 - ppz bs, congrArg _ (by omega), rfl, rfl⟩))
  | doubly => cases h
  | triply => cases h
  | second l =>
    obtain ⟨rfl, rfl⟩ := Place.slot.inj h
    exact Or.inr (Or.inr (Or.inr ⟨l, rfl, rfl, rfl⟩))

theorem place_root {bs : ℕ} {n : Node} {r : Fin 10} (h : n.place bs = .root r) :
    (∃ j < 7, n = .data j ∧ r = Fin.ofNat 10 j) ∨ (n = .block 0 ∧ r = MX3_IDZONE) ∨
      (n = .doubly ∧ r = MX3_IIDZONE) ∨ (n = .triply ∧ r = MX3_IIIDZONE) := by
  cases n with
  | data j =>
    simp only [Node.place] at h
    split at h
    · obtain rfl := Place.root.inj h
      exact Or.inl ⟨j, by assumption, rfl, rfl⟩
    · cases h
  | block b =>
    simp only [Node.place] at h
    split at h
    · obtain rfl := Place.root.inj h
      exact Or.inr (Or.inl ⟨by simp_all, rfl⟩)
    · split at h <;> cases h
  | doubly => exact Or.inr (Or.inr (Or.inl ⟨rfl, (Place.root.inj h).symm⟩))
  | triply => exact Or.inr (Or.inr (Or.inr ⟨rfl, (Place.root.inj h).symm⟩))
  | second l => cases h

/-- The tree of a file as places of the inode and of its pointer blocks. -/
def fileShape (bs : ℕ) : PlacedTree.Shape Node (Fin 10) ℕ where
  place := Node.place bs
  rank := Node.rank
  rank_lt n p s h := by
    rcases place_slot h with ⟨j, -, rfl, rfl, -⟩ | ⟨k, -, rfl, rfl, -⟩ | ⟨m, rfl, rfl, -⟩ |
      ⟨l, rfl, rfl, -⟩ <;> simp [Node.rank]

variable {bs : ℕ} {disk : Mem} {inode : Inode}

theorem nodeZone_reads (bs : ℕ) (disk : Mem) (inode : Inode) :
    (fileShape bs).Reads inode.zones (blockSlot disk (baddr bs)) (nodeZone bs disk inode) := by
  intro n
  cases n with
  | data j =>
    simp only [fileShape, Node.place, nodeZone, fileZone, zoneUnder]
    split <;> rfl
  | block b =>
    simp only [fileShape, Node.place, nodeZone, pointerBlock]
    split
    · rfl
    · split <;> rfl
  | doubly => rfl
  | triply => rfl
  | second l => rfl

theorem block_lt {j : ℕ} (hppz : 0 < ppz bs) (h7 : 7 ≤ j) (hj : j < blockStart bs (blocks bs)) :
    (j - 7) / ppz bs < blocks bs := by
  rw [Nat.div_lt_iff_lt_mul hppz]
  unfold blockStart at hj
  omega

theorem in_upward (hppz : 0 < ppz bs) : (fileShape bs).Upward (Node.In bs) := by
  intro n p s hn h
  rcases place_slot h with ⟨j, h7, rfl, rfl, -⟩ | ⟨k, -, rfl, rfl, -⟩ | ⟨m, rfl, rfl, -⟩ |
    ⟨l, rfl, rfl, -⟩
  · exact block_lt hppz h7 hn
  · trivial
  · change 1 + ppz bs + m < blocks bs at hn
    unfold blocks at hn
    exact (Nat.div_lt_iff_lt_mul hppz).mpr (by omega)
  · trivial

theorem slot_lt (hppz : 0 < ppz bs) {n p : Node} {s : ℕ} (hn : n.In bs)
    (h : (fileShape bs).place n = .slot p s) : s < ppz bs := by
  rcases place_slot h with ⟨j, -, rfl, -, rfl⟩ | ⟨k, hk, rfl, -, rfl⟩ | ⟨m, rfl, -, rfl⟩ |
    ⟨l, rfl, -, rfl⟩
  · exact Nat.mod_lt _ hppz
  · exact hk
  · exact Nat.mod_lt _ hppz
  · exact hn

/-- Each pointer of the inode holds one place, and so does each slot. -/
theorem place_injective (bs : ℕ) : Function.Injective (Node.place bs) := by
  intro m n h
  cases hp : n.place bs with
  | root r =>
    rw [hp] at h
    rcases place_root hp with ⟨j, hj, rfl, rfl⟩ | ⟨rfl, rfl⟩ | ⟨rfl, rfl⟩ | ⟨rfl, rfl⟩ <;>
      rcases place_root h with ⟨j', hj', rfl, hr⟩ | ⟨rfl, hr⟩ | ⟨rfl, hr⟩ | ⟨rfl, hr⟩ <;>
      first
      | rfl
      | exact absurd hr (by decide)
      | have hval := congrArg Fin.val hr
        simp only [Fin.val_ofNat, MX3_IDZONE, MX3_IIDZONE, MX3_IIIDZONE] at hval
        first
        | rw [show j' = j by omega]
        | omega
  | slot p s =>
    rw [hp] at h
    have hquot : ∀ x y : ℕ, x / ppz bs = y / ppz bs → x % ppz bs = y % ppz bs → x = y :=
      fun x y hd hm => by rw [← Nat.div_add_mod x (ppz bs), hd, hm, Nat.div_add_mod]
    rcases place_slot hp with ⟨j, h7, rfl, rfl, rfl⟩ | ⟨k, -, rfl, rfl, rfl⟩ | ⟨x, rfl, rfl, rfl⟩ |
        ⟨l, rfl, rfl, rfl⟩ <;>
      rcases place_slot h with ⟨j', h7', rfl, hq, hs⟩ | ⟨k', -, rfl, hq, hs⟩ | ⟨y, rfl, hq, hs⟩ |
        ⟨l', rfl, hq, hs⟩
    case inl.inl =>
      have := hquot (j - 7) (j' - 7) (Node.block.inj hq) hs
      rw [show j = j' by omega]
    case inr.inl.inr.inl => rw [hs]
    case inr.inr.inl.inr.inr.inl => rw [hquot x y (Node.second.inj hq) hs]
    case inr.inr.inr.inr.inr.inr => rw [hs]
    all_goals cases hq

end Places

/-! ## What one change does to the tree -/

section Changes

variable {bs : ℕ} {disk disk' : Mem} {inode inode' : Inode} {W : Set Word} {q : Node} {v zone : Word}

/-- Every zone of the tree is a marked zone of the device. -/
def MarkedZones (bs : ℕ) (disk : Mem) (inode : Inode) : Prop :=
  ∀ n : Node, n.In bs → nodeZone bs disk inode n ≠ 0 → Marked bs disk (nodeZone bs disk inode n)

/-- Place `q` names `v` now, with nothing below; all places elsewhere are as they were. -/
structure Renews (bs : ℕ) (disk : Mem) (inode : Inode) (disk' : Mem) (inode' : Inode) (q : Node)
    (v : Word) : Prop where
  here : nodeZone bs disk' inode' q = v
  below : ∀ n : Node, n.In bs → (fileShape bs).Under q n → n ≠ q → nodeZone bs disk' inode' n = 0
  elsewhere : ∀ n : Node, n.In bs → ¬ (fileShape bs).Under q n →
    nodeZone bs disk' inode' n = nodeZone bs disk inode n

theorem ppz_pos (hl : ZoneLayout bs disk) : 0 < ppz bs := by
  obtain ⟨k, hk⟩ := hl.whole
  have := hl.pos
  unfold ppz
  omega

theorem slot_inZone {s i : ℕ} (hs : s < ppz bs) (hi : i < 4) :
    InZone bs zone (baddr bs zone + 4 * s + i) := by
  unfold ppz at hs
  unfold InZone
  omega

theorem blockSlot_congr {s : ℕ} (hs : s < ppz bs)
    (h : zone ≠ 0 → ∀ x, InZone bs zone x → disk' x = disk x) :
    blockSlot disk' (baddr bs) zone s = blockSlot disk (baddr bs) zone s := by
  unfold blockSlot
  split
  · rfl
  · rename_i hz
    exact load32_congr fun i hi => h hz _ (slot_inZone hs hi)

/-- A place with nothing below it. -/
def Leaf (bs : ℕ) (q : Node) : Prop := ∀ (n : Node) (s : ℕ), n.place bs ≠ .slot q s

theorem leaf_data (bs j : ℕ) : Leaf bs (.data j) := fun n s h => by
  rcases place_slot h with ⟨_, _, _, hp, _⟩ | ⟨_, _, _, hp, _⟩ | ⟨_, _, hp, _⟩ | ⟨_, _, hp, _⟩ <;>
    cases hp

/-- A tree whose pointer blocks keep their bytes keeps its zones. -/
theorem nodeZone_congr (hppz : 0 < ppz bs)
    (h : ∀ p : Node, p.In bs → ¬ Leaf bs p → nodeZone bs disk inode p ≠ 0 →
      ∀ x, InZone bs (nodeZone bs disk inode p) x → disk' x = disk x) :
    ∀ n : Node, n.In bs → nodeZone bs disk' inode n = nodeZone bs disk inode n :=
  (nodeZone_reads bs disk inode).agree (in_upward hppz) (nodeZone_reads bs disk' inode)
    (fun _ _ _ _ => rfl) fun n p s hn hp =>
      blockSlot_congr (slot_lt hppz hn hp) (h p (in_upward hppz n p s hn hp) fun hleaf => hleaf n s hp)

/-- Taking another zone does not touch the tree. -/
theorem Taken.nodeZone_eq (ht : Taken bs disk disk' zone) (hl : ZoneLayout bs disk)
    (hm : MarkedZones bs disk inode) :
    ∀ n : Node, n.In bs → nodeZone bs disk' inode n = nodeZone bs disk inode n :=
  nodeZone_congr (ppz_pos hl) fun p hp _ hz =>
    (ht.extends hl).zones _ (hm p hp hz) (Set.notMem_empty _)

theorem Taken.markedZones (ht : Taken bs disk disk' zone) (hl : ZoneLayout bs disk)
    (hm : MarkedZones bs disk inode) : MarkedZones bs disk' inode := by
  intro n hn hz
  rw [ht.nodeZone_eq hl hm n hn] at hz ⊢
  exact (ht.extends hl).marks _ (hm n hn hz)

theorem Taken.distinct (ht : Taken bs disk disk' zone) (hl : ZoneLayout bs disk)
    (hm : MarkedZones bs disk inode) (hd : DistinctZones bs disk inode) :
    DistinctZones bs disk' inode := by
  intro m n hmi hni hne he
  rw [ht.nodeZone_eq hl hm m hmi] at hne he
  rw [ht.nodeZone_eq hl hm n hni] at he
  exact hd m n hmi hni hne he

/-- A block without pointers. -/
def EmptyBlock (bs : ℕ) (disk : Mem) (zone : Word) : Prop :=
  ∀ x, InZone bs zone x → disk x = 0

theorem EmptyBlock.slot (h : EmptyBlock bs disk zone) {s : ℕ} (hs : s < ppz bs) :
    blockSlot disk (baddr bs) zone s = 0 := by
  unfold blockSlot
  split
  · rfl
  · refine load32_leByte fun i hi => ?_
    rw [h _ (slot_inZone hs hi)]
    simp [leByte]

theorem Taken.empty (ht : Taken bs disk disk' zone) : EmptyBlock bs disk' zone := ht.zeroed

/-- A pointer of the inode set to an empty block, or to a data zone. -/
theorem renews_root {r : Fin 10} (hppz : 0 < ppz bs) (hq : q.place bs = .root r)
    (hbelow : EmptyBlock bs disk v ∨ Leaf bs q) :
    Renews bs disk inode disk (inode.setZone r v) q v := by
  have hhere : nodeZone bs disk (inode.setZone r v) q = v := by
    rw [(nodeZone_reads bs disk _).root hq]
    exact Function.update_self r v inode.zones
  refine ⟨hhere, fun n hn hu hne => ?_, fun n hn hu => ?_⟩
  · refine (nodeZone_reads bs disk _).empty_below (in_upward hppz) (fun s => if_pos rfl)
      (fun m s hm hp => ?_) hu hne hn
    rcases hbelow with he | hleaf
    · rw [hhere]
      exact he.slot (slot_lt hppz hm hp)
    · exact absurd hp (hleaf m s)
  · refine (nodeZone_reads bs disk _).agree ((in_upward hppz).outside q)
      (nodeZone_reads bs disk _) (fun m r' hm hp => ?_) (fun _ _ _ _ _ => rfl) n ⟨hn, hu⟩
    have hne : r' ≠ r := by
      rintro rfl
      obtain rfl := place_injective bs (hp.trans hq.symm)
      exact hm.2 .refl
    simp [Inode.setZone, Function.update_of_ne hne]

theorem blockSlot_store_other {p z : Word} {s s' : ℕ} (hs : s < ppz bs) (hs' : s' < ppz bs)
    (h : z ≠ p ∨ s' ≠ s) :
    blockSlot (store32 disk (baddr bs p + 4 * s) v) (baddr bs) z s'
      = blockSlot disk (baddr bs) z s' := by
  unfold blockSlot
  split
  · rfl
  · refine load32_blit_disjoint ?_
    by_cases hz : z = p
    · subst hz
      have := h.resolve_left fun hne => hne rfl
      omega
    · by_contra hover
      unfold ppz at hs hs'
      have hinz : InZone bs z (max (baddr bs z + 4 * s') (baddr bs p + 4 * s)) := by
        unfold InZone
        omega
      have hinp : InZone bs p (max (baddr bs z + 4 * s') (baddr bs p + 4 * s)) := by
        unfold InZone
        omega
      exact hz (inZone_unique hinz hinp)

/-- A slot of a pointer block of the tree set to an empty block, or to a data zone. -/
theorem renews_slot {p : Node} {s : ℕ} (hppz : 0 < ppz bs) (hd : DistinctZones bs disk inode)
    (hin : q.In bs) (hq : q.place bs = .slot p s) (hp : nodeZone bs disk inode p ≠ 0)
    (hbelow : (EmptyBlock bs disk v ∧ v ≠ nodeZone bs disk inode p) ∨ Leaf bs q) :
    Renews bs disk inode
      (store32 disk (baddr bs (nodeZone bs disk inode p) + 4 * s) v) inode q v := by
  have hpin : p.In bs := in_upward hppz q p s hin hq
  have hs : s < ppz bs := slot_lt hppz hin hq
  have helse : ∀ n : Node, n.In bs → ¬ (fileShape bs).Under q n →
      nodeZone bs (store32 disk (baddr bs (nodeZone bs disk inode p) + 4 * s) v) inode n
        = nodeZone bs disk inode n := by
    intro n hn hu
    refine (nodeZone_reads bs disk inode).agree ((in_upward hppz).outside q)
      (nodeZone_reads bs _ inode) (fun _ _ _ _ => rfl) (fun m p' s' hm hp' => ?_) n ⟨hn, hu⟩
    have hs' : s' < ppz bs := slot_lt hppz hm.1 hp'
    refine blockSlot_store_other hs hs' ?_
    by_contra hsame
    push Not at hsame
    -- the same block and the same slot: then the place is `q` itself
    have hpp : p = p' := hd p p' hpin (in_upward hppz m p' s' hm.1 hp') hp hsame.1.symm
    obtain rfl : m = q := place_injective bs (by
      rw [hq, hpp, ← hsame.2]
      exact hp')
    exact hm.2 .refl
  have hup : ¬ (fileShape bs).Under q p := Shape.not_under_of_slot hq
  have hhere : nodeZone bs (store32 disk (baddr bs (nodeZone bs disk inode p) + 4 * s) v) inode q
      = v := by
    rw [(nodeZone_reads bs _ inode).slot hq, helse p hpin hup, blockSlot, if_neg hp]
    exact load32_store32 disk _ v
  refine ⟨hhere, fun n hn hu hne => ?_, helse⟩
  refine (nodeZone_reads bs _ inode).empty_below (in_upward hppz) (fun _ => if_pos rfl)
    (fun m s' hm hp' => ?_) hu hne hn
  rcases hbelow with ⟨he, hne'⟩ | hleaf
  · have hs' : s' < ppz bs := slot_lt hppz hm hp'
    rw [hhere, blockSlot_store_other hs hs' (Or.inl hne')]
    exact he.slot hs'
  · exact absurd hp' (hleaf m s')

theorem Renews.cases (hr : Renews bs disk inode disk' inode' q v) {n : Node} (hn : n.In bs)
    (hz : nodeZone bs disk' inode' n ≠ 0) :
    (n = q ∧ nodeZone bs disk' inode' n = v) ∨
      (¬ (fileShape bs).Under q n ∧ nodeZone bs disk' inode' n = nodeZone bs disk inode n) := by
  by_cases hu : (fileShape bs).Under q n
  · by_cases hne : n = q
    · subst hne
      exact Or.inl ⟨rfl, hr.here⟩
    · exact absurd (hr.below n hn hu hne) hz
  · exact Or.inr ⟨hu, hr.elsewhere n hn hu⟩

theorem Renews.distinct (hr : Renews bs disk inode disk' inode' q v)
    (hd : DistinctZones bs disk inode)
    (hv : v ≠ 0 → ∀ n : Node, n.In bs → nodeZone bs disk inode n ≠ v) :
    DistinctZones bs disk' inode' := by
  intro m n hm hn hz he
  have hz' := hz
  rw [he] at hz'
  rcases hr.cases hm hz with ⟨rfl, hmv⟩ | ⟨-, hme⟩ <;>
    rcases hr.cases hn hz' with ⟨rfl, hnv⟩ | ⟨-, hne⟩
  · rfl
  · rw [hmv, hne] at he
    exact absurd he.symm (hv (hmv ▸ hz) n hn)
  · rw [hme, hnv] at he
    exact absurd he (hv (hnv ▸ hz') m hm)
  · rw [hme] at hz he
    rw [hne] at he
    exact hd m n hm hn hz he

theorem Renews.markedZones (hr : Renews bs disk inode disk' inode' q v)
    (hm : MarkedZones bs disk inode) (hmarks : ∀ z, Marked bs disk z → Marked bs disk' z)
    (hv : v ≠ 0 → Marked bs disk' v) : MarkedZones bs disk' inode' := by
  intro n hn hz
  rcases hr.cases hn hz with ⟨-, he⟩ | ⟨-, he⟩
  · rw [he] at hz ⊢
    exact hv hz
  · rw [he] at hz ⊢
    exact hmarks _ (hm n hn hz)

end Changes

end Minix3
