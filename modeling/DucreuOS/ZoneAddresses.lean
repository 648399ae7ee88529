import DucreuOS.FileCreation

/-! # Where the code paths find a zone

The byte address of a zone is the product of its number and the block size, computed in 32 bits in
some places and in 64 bits in others. -/
namespace Minix3

open ByteMemory LiveBlocks FileOps

variable {bs : ℕ} {z : Word}

/-- Zone `z` begins at this byte for every code path that goes to it, on every device that has such
a zone. -/
structure AddressedAt (bs : ℕ) (z : Word) (address : ℕ) : Prop where
  /-- `minix3_set_zone_to_zero` clears it there. -/
  zeroed (dev : Mount) (h : Heap ℕ Machine) : dev.bs = bs →
    isZoneInRange h.data.fs.disk z = true →
      ∃ h', FileOps.setZoneToZero dev z h = .ok ((), h') ∧
        h'.data.fs.disk = fill h.data.fs.disk address bs 0
  /-- `minix3_append_zone` returns it when `minix3_set_zone_to` has returned `z`. -/
  appended (dev : Mount) (f_inode inode' : Inode) (next_zone new_zone : Word)
    (h h₁ h₂ h₃ h₄ : Heap ℕ Machine) : dev.bs = bs → isZoneInRange h.data.fs.disk z = true →
      nextZone dev f_inode h = .ok (next_zone, h₁) →
      FileOps.getAvailableZone dev h₁ = .ok (new_zone, h₂) →
      FileOps.setZoneOccupied dev new_zone h₂ = .ok ((), h₃) →
      setZoneTo dev f_inode next_zone.toNat new_zone h₃ = .ok ((inode', z), h₄) →
        appendZone dev f_inode h = .ok ((inode', address), h₄)
  /-- `minix3_zone_walker` reads there the slots of `z` as a block of zone pointers. -/
  walked (fs : Fs) (inode : Inode) (b s : ℕ) : isZoneInRange fs.disk z = true → z ≠ 0 →
    b < blocks bs → s < ppz bs → walkedBlock bs fs.disk inode b = z →
      ∃ w, zoneWalker bs fs inode (blockStart bs b + s) none
        = some (w, some (load32 fs.disk (address + 4 * s)))
  /-- It finds there the blocks below a doubly indirect one. -/
  walked_doubly (fs : Fs) (inode : Inode) (k : ℕ) : isZoneInRange fs.disk z = true → z ≠ 0 →
    k < ppz bs → inode.zones MX3_IIDZONE = z →
      walkedBlock bs fs.disk inode (1 + k) = load32 fs.disk (address + 4 * k)
  /-- It reads there the triply indirect block. -/
  walked_triply (i : ℕ) (w : Walk) : isZoneInRange w.fs.disk z = true → z ≠ 0 →
    w.inode.zones MX3_IIIDZONE = z →
      walkTriplyIndirect bs i none w
        = walkDoubles bs i none address (ppz bs) 0 (window w.fs.disk address) w
  /-- `minix3_clear_all_zones` frees the zones that the words there name. -/
  freed (c : Clear) : isZoneInRange c.disk z = true →
    clearBlock bs z c = (ppz bs).fold (fun j _ => clearSlot bs j)
      { c with buffer_I := window c.disk address }
  freed_doubly (beyond : ℕ → Word) (c : Clear) : isZoneInRange c.disk z = true → z ≠ 0 →
    c.inode.zones MX3_IIDZONE = z →
      clearDoubly bs beyond c = ((ppz bs).fold
        (fun k _ => clearDoublySlot bs beyond (window c.disk address) k) c).freePointer bs MX3_IIDZONE
  freed_triply (c : Clear) : isZoneInRange c.disk z = true → z ≠ 0 →
    c.inode.zones MX3_IIIDZONE = z →
      clearTriply bs c = ((ppz bs).fold
        (fun l _ => clearTriplySlot bs (window c.disk address) l) c).freePointer bs MX3_IIIDZONE
  /-- `minix3_gzbars` returns it when the walk has found `z`. -/
  located (dev : Mount) (f_inode : Inode) (i : ℕ) (w : Walk) (h h' : Heap ℕ Machine) :
    dev.bs = bs → isZoneInRange h.data.fs.disk z = true →
      FileOps.zoneWalker dev f_inode i none h = .ok ((w, z), h') →
        gzbars dev f_inode i h = .ok ((address, w.remaining), h')

theorem setZoneToZero_run (dev : Mount) (h : Heap ℕ Machine) (z : Word) :
    ∃ h', FileOps.setZoneToZero dev z h = .ok ((), h') ∧
      h'.data.fs.disk = Minix3.setZoneToZero dev.bs h.data.fs.disk z := by
  rw [(setZoneToZero_computes z).run]
  exact ⟨_, rfl, rfl⟩

/-- A slot of a block that the walk finds. -/
theorem walked_slot {fs : Fs} {inode : Inode} {b s : ℕ} (hb : b < blocks bs) (hs : s < ppz bs)
    (hwalk : walkedBlock bs fs.disk inode b = z) (hz : z ≠ 0) :
    ∃ w, zoneWalker bs fs inode (blockStart bs b + s) none
      = some (w, some (load32 fs.disk (baddr32 bs z + 4 * s))) := by
  have hend : blockStart bs (b + 1) ≤ blockStart bs (blocks bs) := blockStart_mono bs hb
  rw [blockStart_succ] at hend
  have hpresent : Present bs (walkedBlock bs fs.disk inode) (blockStart bs b + s) := by
    rw [present_block b hs, hwalk]
    exact hz
  have hzone : walkedZone bs fs.disk inode (blockStart bs b + s)
      = load32 fs.disk (baddr32 bs z + 4 * s) := by
    rw [walkedZone, zoneUnder_block b hs, hwalk, blockSlot, if_neg hz]
  refine ⟨walkAt bs fs inode (blockStart bs b + s), ?_⟩
  rw [zoneWalker_found le_rfl (by omega) hpresent fun m hm hm' => absurd hm' (by omega), hzone]

/-- Below the 32 bits all of them go to the product. -/
theorem addressedAt_baddr (h32 : baddr bs z < 2 ^ 32) : AddressedAt bs z (baddr bs z) := by
  have haddr := baddr32_eq h32
  constructor
  · rintro dev h rfl _
    obtain ⟨h', hrun, hdisk⟩ := setZoneToZero_run dev h z
    rw [Minix3.setZoneToZero, haddr] at hdisk
    exact ⟨h', hrun, hdisk⟩
  · rintro dev f_inode inode' next_zone new_zone h h₁ h₂ h₃ h₄ rfl _ hnext hnew hset hto
    rw [appendZone, bind_run hnext, bind_run hnew, bind_run hset, bind_run hto, ← haddr]
    rfl
  · intro fs inode b s _ hz hb hs hwalk
    rw [← haddr]
    exact walked_slot hb hs hwalk hz
  · intro fs inode k _ hz hk hzone
    rw [walkedBlock, if_neg (by omega), if_pos (by omega), hzone, blockSlot, if_neg hz, haddr,
      Nat.add_sub_cancel_left]
  · intro i w _ hz hzone
    rw [← haddr]
    simp only [walkTriplyIndirect, freshPointer, Option.isSome_none, Bool.false_eq_true, and_false,
      if_false]
    change (if w.inode.zones MX3_IIIDZONE ≠ 0 then _ else _) = _
    rw [hzone, if_pos hz]
  · intro c _
    rw [clearBlock, haddr]
  · intro beyond c _ hz hzone
    rw [clearDoubly, if_pos (by rwa [hzone]), hzone, haddr]
  · intro c _ hz hzone
    rw [clearTriply, if_pos (by rwa [hzone]), hzone, haddr]
  · rintro dev f_inode i w h h' rfl _ hwalk
    rw [gzbars, bind_run hwalk]
    rfl

/-- A device all of whose zones from 65535 on are in range. -/
def onesDevice : Mem := fun _ => 0xff

theorem ones_inRange (hz : 2 ^ 16 ≤ z.toNat) : isZoneInRange onesDevice z = true := by
  rw [inRange_iff]
  have hfirst : (getSuperblock onesDevice).firstZone.toNat = 0xffff := by decide
  have hnum : (getSuperblock onesDevice).numZones.toNat = 0xffffffff := by decide
  have := z.isLt
  omega

/-- Beyond them a new zone is cleared somewhere else. -/
theorem zeroed_elsewhere (hbs : bs < 2 ^ 16) (h32 : 2 ^ 32 ≤ baddr bs z) :
    isZoneInRange onesDevice z = true ∧
      Minix3.setZoneToZero bs onesDevice z (baddr bs z) = 0xff := by
  have hz : 2 ^ 16 ≤ z.toNat := by
    by_contra hlt
    have hle : z.toNat * bs ≤ 2 ^ 16 * bs := Nat.mul_le_mul_right bs (by omega)
    simp only [baddr] at h32
    omega
  refine ⟨ones_inRange hz, ?_⟩
  have hmod : baddr32 bs z = baddr bs z % 2 ^ 32 := rfl
  rw [Minix3.setZoneToZero, fill, blit_outside (by omega)]
  rfl

theorem addressedAt_fits (hbs : bs < 2 ^ 16) (h : AddressedAt bs z (baddr bs z)) :
    baddr bs z < 2 ^ 32 := by
  by_contra hge
  have hpos : 0 < bs := by
    by_contra hzero
    rw [baddr, Nat.eq_zero_of_not_pos hzero, Nat.mul_zero] at hge
    exact hge (by decide)
  obtain ⟨hrange, hkept⟩ := zeroed_elsewhere hbs (not_lt.mp hge)
  let dev : Mount := { smallMount with bs := bs }
  let heap : Heap ℕ Machine := ⟨∅, ⟨⟨onesDevice, 0, 1⟩, fun _ _ => 0⟩⟩
  obtain ⟨h', hrun, hdisk⟩ := h.zeroed dev heap rfl hrange
  obtain ⟨h'', hrun', hdisk'⟩ := setZoneToZero_run dev heap z
  rw [hrun] at hrun'
  cases hrun'
  have hbyte : (0xff : Byte) = fill onesDevice (baddr bs z) bs 0 (baddr bs z) := by
    rw [← hkept]
    exact congrFun (hdisk'.symm.trans hdisk) (baddr bs z)
  rw [fill, blit_inside (le_refl _) (Nat.lt_add_of_pos_right hpos)] at hbyte
  exact absurd hbyte (by decide)

/-- All code paths find a zone at the product of its number and the block size exactly if this
product fits 32 bits. -/
theorem zone_addressed_iff (bs : BitVec 16) (z : Word) :
    AddressedAt bs.toNat z (z.toNat * bs.toNat) ↔ z.toNat * bs.toNat < 2 ^ 32 :=
  ⟨addressedAt_fits bs.isLt, addressedAt_baddr⟩

/-- Zone 4194304 of 1024 bytes is read at byte `2 ^ 32`; clearing it clears the boot block. -/
theorem zone_clears_boot_block : isZoneInRange onesDevice 4194304 = true ∧
    baddr 1024 4194304 = 2 ^ 32 ∧ Minix3.setZoneToZero 1024 onesDevice 4194304 0 = 0 ∧
    ¬AddressedAt 1024 4194304 (2 ^ 32) := by
  refine ⟨ones_inRange (by decide), by decide, by decide, fun h => ?_⟩
  exact absurd (addressedAt_fits (z := 4194304) (by decide) h) (by decide)

end Minix3
