import DucreuOS.Library.ByteMemory

/-! # The MINIX3 device

Superblock, bitmaps and inodes as bytes of the block device, and the allocators with their
persistent cursors. The block size is that of the superblock, read once by `minix3_init`. -/
namespace Minix3

open ByteMemory

/-- A zone number or an inode number. -/
abbrev Word := BitVec 32

def MX3_BOOT_BLOCK_SIZE : ℕ := 1024

/-- The device, and the static variables of the two allocators. -/
structure Fs where
  disk : Mem
  zoneCursor : Word
  inodeCursor : Word

/-- What `minix3.c` reads of `mx3_superblock_t`. -/
structure Superblock where
  numInodes : Word
  imapBlocks : BitVec 16
  zoneBlocks : BitVec 16
  firstDataZone : BitVec 16
  numZones : Word

/-- `minix3_get_superblock` -/
def getSuperblock (disk : Mem) : Superblock where
  numInodes := load32 disk MX3_BOOT_BLOCK_SIZE
  imapBlocks := load16 disk (MX3_BOOT_BLOCK_SIZE + 6)
  zoneBlocks := load16 disk (MX3_BOOT_BLOCK_SIZE + 8)
  firstDataZone := load16 disk (MX3_BOOT_BLOCK_SIZE + 10)
  numZones := load32 disk (MX3_BOOT_BLOCK_SIZE + 20)

namespace Superblock

variable (sb : Superblock) (bs : ℕ)

/-- `sb->first_data_zone` as a zone number -/
def firstZone : Word := sb.firstDataZone.setWidth 32

def zmapStart : ℕ := MX3_BOOT_BLOCK_SIZE + bs + sb.imapBlocks.toNat * bs
def inodeStart : ℕ := sb.zmapStart bs + sb.zoneBlocks.toNat * bs

end Superblock

def imapStart (bs : ℕ) : ℕ := MX3_BOOT_BLOCK_SIZE + bs

section Bitmaps

variable (bs : ℕ)

def isZoneOccupied (disk : Mem) (zone_num : Word) : Bool :=
  let sb := getSuperblock disk
  zone_num < sb.firstZone || bitAt disk (sb.zmapStart bs) (zone_num - sb.firstZone).toNat

/-- Inode 0 is invalid. -/
def isInodeOccupied (disk : Mem) (inode_num : Word) : Bool :=
  inode_num ≠ 0 && bitAt disk (imapStart bs) (inode_num - 1).toNat

def isZoneInRange (disk : Mem) (zone_num : Word) : Bool :=
  let sb := getSuperblock disk
  zone_num - sb.firstZone < sb.numZones && !(zone_num < sb.firstZone)

def isInodeInRange (disk : Mem) (inode_num : Word) : Bool :=
  inode_num ≠ 0 && !(getSuperblock disk).numInodes < inode_num - 1

def setZoneAs (disk : Mem) (zone_num : Word) (as : Bool) : Mem :=
  let sb := getSuperblock disk
  if zone_num < sb.firstZone then disk
  else
    let bit := (zone_num - sb.firstZone).toNat
    if as then
      if isZoneOccupied bs disk zone_num then disk
      else if !isZoneInRange disk zone_num then disk
      else setBit disk (sb.zmapStart bs) bit
    else
      if !isZoneOccupied bs disk zone_num then disk
      else if !isZoneInRange disk zone_num then disk
      else clearBit disk (sb.zmapStart bs) bit

def setInodeAs (disk : Mem) (inode_num : Word) (as : Bool) : Mem :=
  if inode_num = 0 then disk
  else
    let bit := (inode_num - 1).toNat
    if as then
      if isInodeOccupied bs disk inode_num then disk
      else if !isInodeInRange disk inode_num then disk
      else setBit disk (imapStart bs) bit
    else
      if !isInodeOccupied bs disk inode_num then disk
      else if !isInodeInRange disk inode_num then disk
      else clearBit disk (imapStart bs) bit

def setZoneOccupied (disk : Mem) (zone_num : Word) : Mem := setZoneAs bs disk zone_num true
def setZoneUnoccupied (disk : Mem) (zone_num : Word) : Mem := setZoneAs bs disk zone_num false
def setInodeOccupied (disk : Mem) (inode_num : Word) : Mem := setInodeAs bs disk inode_num true
def setInodeUnoccupied (disk : Mem) (inode_num : Word) : Mem := setInodeAs bs disk inode_num false

end Bitmaps

section Zones

variable (bs : ℕ)

/-- `zone * mx3_block_size` in 32 bits -/
def baddr32 (zone : Word) : ℕ := zone.toNat * bs % 2 ^ 32

/-- `(uint64_t) mx3_block_size * zone` -/
def baddr (zone : Word) : ℕ := zone.toNat * bs

def setZoneToZero (disk : Mem) (which_zone : Word) : Mem := fill disk (baddr32 bs which_zone) bs 0

/-- The loop of `minix3_get_available_zone` from a cursor; `none` if it has not ended yet. -/
def availableZoneFrom (disk : Mem) : ℕ → Word → Option Word
  | 0, _ => none
  | n + 1, cursor =>
    let cursor := if !isZoneInRange disk cursor then 0 else cursor
    if !isZoneOccupied bs disk cursor then some cursor else availableZoneFrom disk n (cursor + 1)

/-- More rounds than there are cursors: a loop that has not ended by then never does. -/
def rounds : ℕ := 2 ^ 32 + 1

def getAvailableZone (fs : Fs) : Option (Fs × Word) :=
  let cursor := if fs.zoneCursor = 0 then (getSuperblock fs.disk).firstZone else fs.zoneCursor
  (availableZoneFrom bs fs.disk rounds cursor).map fun zone =>
    ({ fs with disk := setZoneToZero bs fs.disk zone, zoneCursor := zone }, zone)

def availableInodeFrom (disk : Mem) : ℕ → Word → Option Word
  | 0, _ => none
  | n + 1, cursor =>
    let cursor := if !isInodeInRange disk cursor then 1 else cursor
    if !isInodeOccupied bs disk cursor then some cursor else availableInodeFrom disk n (cursor + 1)

def getAvailableInode (fs : Fs) : Option (Fs × Word) :=
  (availableInodeFrom bs fs.disk rounds fs.inodeCursor).map fun inode_num =>
    ({ fs with inodeCursor := inode_num }, inode_num)

end Zones

/-! ## Inodes -/

/-- `mx3_inode_t` -/
@[ext] structure Inode where
  mode : BitVec 16
  nlinks : BitVec 16
  uid : BitVec 16
  gid : BitVec 16
  size : Word
  atime : Word
  ctime : Word
  mtime : Word
  zones : Fin 10 → Word

/-- An inode has a first zone. -/
instance neZero_zones : NeZero 10 := ⟨by decide⟩

def MX3_MODE_MASK : BitVec 16 := 0xf000
def MX3_MODE_REGULAR : BitVec 16 := 0x8000
def MX3_MODE_DIRECTORY : BitVec 16 := 0x4000
def MX3_777 : BitVec 16 := 0o777
def MX3_GID_MISHLER : BitVec 16 := 0xd000
def MX3_UID_MISHLER : BitVec 16 := 0xd000

/-- `sizeof(mx3_inode_t)` -/
def inodeSize : ℕ := 64

namespace Inode

/-- `kcalloc(sizeof(mx3_inode_t))` -/
def zero : Inode := ⟨0, 0, 0, 0, 0, 0, 0, 0, fun _ => 0⟩

def isDirectory (n : Inode) : Bool := n.mode &&& MX3_MODE_MASK = MX3_MODE_DIRECTORY

def setZone (n : Inode) (i : Fin 10) (zone : Word) : Inode :=
  { n with zones := Function.update n.zones i zone }

/-- The inode on the device at an address. -/
def load (disk : Mem) (a : ℕ) : Inode where
  mode := load16 disk a
  nlinks := load16 disk (a + 2)
  uid := load16 disk (a + 4)
  gid := load16 disk (a + 6)
  size := load32 disk (a + 8)
  atime := load32 disk (a + 12)
  ctime := load32 disk (a + 16)
  mtime := load32 disk (a + 20)
  zones := fun i => load32 disk (a + 24 + 4 * i)

/-- Its bytes. -/
def bytes (n : Inode) (o : ℕ) : Byte :=
  if o < 2 then leByte n.mode o
  else if o < 4 then leByte n.nlinks (o - 2)
  else if o < 6 then leByte n.uid (o - 4)
  else if o < 8 then leByte n.gid (o - 6)
  else if o < 12 then leByte n.size (o - 8)
  else if o < 16 then leByte n.atime (o - 12)
  else if o < 20 then leByte n.ctime (o - 16)
  else if o < 24 then leByte n.mtime (o - 20)
  else leByte (n.zones (Fin.ofNat 10 ((o - 24) / 4))) ((o - 24) % 4)

theorem load_blit (n : Inode) (disk : Mem) (a : ℕ) : load (blit disk a inodeSize n.bytes) a = n := by
  have hbyte {k i : ℕ} (h : k + i < inodeSize) :
      blit disk a inodeSize n.bytes (a + k + i) = n.bytes (k + i) := by
    rw [Nat.add_assoc, blit_inside (Nat.le_add_right a _) (by omega), Nat.add_sub_cancel_left]
  have h16 {k : ℕ} {v : BitVec 16} (hk : k + 2 ≤ inodeSize)
      (hv : ∀ i < 2, n.bytes (k + i) = leByte v i) :
      load16 (blit disk a inodeSize n.bytes) (a + k) = v :=
    load16_leByte fun i hi => (hbyte (by omega)).trans (hv i hi)
  have h32 {k : ℕ} {v : Word} (hk : k + 4 ≤ inodeSize)
      (hv : ∀ i < 4, n.bytes (k + i) = leByte v i) :
      load32 (blit disk a inodeSize n.bytes) (a + k) = v :=
    load32_leByte fun i hi => (hbyte (by omega)).trans (hv i hi)
  apply Inode.ext
  · exact h16 (k := 0) (by decide) fun i hi => by grind [bytes]
  · exact h16 (by decide) fun i hi => by grind [bytes]
  · exact h16 (by decide) fun i hi => by grind [bytes]
  · exact h16 (by decide) fun i hi => by grind [bytes]
  · exact h32 (by decide) fun i hi => by grind [bytes]
  · exact h32 (by decide) fun i hi => by grind [bytes]
  · exact h32 (by decide) fun i hi => by grind [bytes]
  · exact h32 (by decide) fun i hi => by grind [bytes]
  · funext z
    have hz := z.isLt
    change load32 (blit disk a inodeSize n.bytes) (a + 24 + 4 * z) = n.zones z
    rw [Nat.add_assoc]
    refine h32 (by unfold inodeSize; omega) fun i hi => ?_
    have hslot : Fin.ofNat 10 ((24 + 4 * z.val + i - 24) / 4) = z := by
      apply Fin.ext
      simp only [Fin.val_ofNat]
      omega
    have hrest : (24 + 4 * z.val + i - 24) % 4 = i := by omega
    unfold bytes
    rw [if_neg (by omega), if_neg (by omega), if_neg (by omega), if_neg (by omega),
      if_neg (by omega), if_neg (by omega), if_neg (by omega), if_neg (by omega), hslot, hrest]

end Inode

/-- Where inode `inode_num` lies: `(inode_num-1)*sizeof(mx3_inode_t)` into the table. -/
def inodeAddr (bs : ℕ) (disk : Mem) (inode_num : Word) : ℕ :=
  (getSuperblock disk).inodeStart bs + (inode_num - 1).toNat * inodeSize

def getInode (bs : ℕ) (disk : Mem) (inode_num : Word) : Inode :=
  Inode.load disk (inodeAddr bs disk inode_num)

def putInode (bs : ℕ) (disk : Mem) (inode_num : Word) (inode : Inode) : Mem :=
  blit disk (inodeAddr bs disk inode_num) inodeSize inode.bytes

end Minix3
