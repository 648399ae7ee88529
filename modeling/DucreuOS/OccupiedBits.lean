import DucreuOS.InodeSearch
import DucreuOS.ZoneSearch

/-! # The bits of the two bitmaps

`minix3_set_zone_as` and `minix3_set_inode_as` against the predicates that read the bitmaps. The
bitmap of the inodes begins one block behind the superblock, that of the zones behind it. -/
namespace Minix3

open ByteMemory

/-- The bit of a zone in the bitmap. -/
def zmapBit (disk : Mem) (zone_num : Word) : ℕ := (zone_num - (getSuperblock disk).firstZone).toNat

variable {bs : ℕ} {disk disk' : Mem} {z n other : Word} {as : Bool}

/-! ## What the predicates read -/

/-- The predicate of the zones reads two fields of the superblock. -/
structure SameZoneFields (disk disk' : Mem) : Prop where
  imapBlocks : (getSuperblock disk').imapBlocks = (getSuperblock disk).imapBlocks
  firstDataZone : (getSuperblock disk').firstDataZone = (getSuperblock disk).firstDataZone

theorem SameZoneFields.occupied (h : SameZoneFields disk disk')
    (hbit : bitAt disk' ((getSuperblock disk).zmapStart bs) (zmapBit disk z)
      = bitAt disk ((getSuperblock disk).zmapStart bs) (zmapBit disk z)) :
    isZoneOccupied bs disk' z = isZoneOccupied bs disk z := by
  have hfirst : (getSuperblock disk').firstZone = (getSuperblock disk).firstZone := by
    rw [Superblock.firstZone, h.firstDataZone, Superblock.firstZone]
  have hstart : (getSuperblock disk').zmapStart bs = (getSuperblock disk).zmapStart bs := by
    rw [Superblock.zmapStart, h.imapBlocks, Superblock.zmapStart]
  rw [zmapBit] at hbit
  simp only [isZoneOccupied, hfirst, hstart, hbit]

/-! ## What the setters store -/

end Minix3
