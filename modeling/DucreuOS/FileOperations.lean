import DucreuOS.Library.LiveBlocks
import DucreuOS.ZoneClear

/-! # Operations on files and directories

What `minix3.c` does to inodes, files and directories, with the kernel heap beside the device:
`kcalloc` adds a block to the set of live ones and `kfree` takes it out. The walks over the zones
of a file, the bitmaps and the inode table are those of the model without a heap. -/
namespace Minix3.FileOps

open ByteMemory LiveBlocks

/-- The device, and the bytes that the code reads without having written them: a local variable
or the memory behind a buffer, one of them for each place that may read it. -/
structure Machine where
  fs : Fs
  unknown : ℕ → Mem

/-- `sizeof(mx3_superblock_t)` -/
def superblockSize : ℕ := 32

/-- A mounted device with sectors of `sector` bytes and zones of `bs`. Its superblock has been read
once by `minix3_init`, so the checks of `minix3_get_superblock` pass. -/
structure Mount where
  heap : Allocator ℕ
  sector : ℕ
  bs : ℕ
  sector_fits : superblockSize ≤ sector
  sector_aligned : MX3_BOOT_BLOCK_SIZE % sector = 0

abbrev Op := Prog ℕ Machine

/-- What a call does to the machine when the heap is left out. -/
abbrev Effect := StateT Machine Option

def reading {α : Type} (f : Fs → α) : Effect α := fun m => some (f m.fs, m)

def writing (f : Fs → Fs) : Effect Unit := fun m => some ((), { m with fs := f m.fs })

/-- The next bytes that nothing has written. -/
def guess : Effect Mem := fun m =>
  some (m.unknown 0, { m with unknown := fun n => m.unknown (n + 1) })

def reads {α : Type} (f : Fs → α) : Op α := onData (reading f)

def updates (f : Fs → Fs) : Op Unit := onData (writing f)

def unknown : Op Mem := onData guess

def hang {α : Type} : Op α := onData fun _ => none

abbrev kfree (addr : ℕ) : Op Unit := release addr

section Calls

variable (dev : Mount)

abbrev kcalloc : Op ℕ := allocate dev.heap

/-! ## The block device -/

/-- `block_read_write` with polling, for a device that exists. -/
def blockReadWrite (start_byte end_byte : ℕ) (transfer : Fs → Fs) : Op ℕ :=
  if start_byte % dev.sector ≠ 0 then pure 1
  else if end_byte % dev.sector ≠ 0 then pure 1
  else if end_byte < start_byte then pure 2
  else if start_byte = end_byte then pure 3
  else do
    let brq ← kcalloc dev
    updates transfer
    kfree brq
    pure 0

def blockStartByte (start : ℕ) : ℕ := start / dev.sector * dev.sector

def blockEndByte (start size : ℕ) : ℕ :=
  (start + size + dev.sector - 1) / dev.sector * dev.sector

/-- The bytes of the device from `start` on; the caller has asked for the first `size`. -/
def blockReadArbitrary (start size : ℕ) : Op Mem := do
  let tbuffer ← kcalloc dev
  let _ ← blockReadWrite dev (blockStartByte dev start) (blockEndByte dev start size) id
  let buffer ← reads fun fs => window fs.disk start
  -- also after a read that has failed, which is one of no bytes
  kfree tbuffer
  pure buffer

def blockWriteArbitrary (buffer : Mem) (start size : ℕ) : Op Unit := do
  let tbuffer ← kcalloc dev
  let failed ← blockReadWrite dev (blockStartByte dev start) (blockEndByte dev start size) id
  if failed ≠ 0 then kfree tbuffer
  else
    let _ ← blockReadWrite dev (blockStartByte dev start) (blockEndByte dev start size)
      fun fs => { fs with disk := blit fs.disk start size buffer }
    kfree tbuffer

/-- The superblock, in a block that the caller has to free. -/
def getSuperblock : Op (ℕ × Superblock) := do
  let buffer ← kcalloc dev
  let _ ← blockReadWrite dev MX3_BOOT_BLOCK_SIZE (MX3_BOOT_BLOCK_SIZE + dev.sector) id
  let mx3_sb ← reads fun fs => Minix3.getSuperblock fs.disk
  pure (buffer, mx3_sb)

/-! ## Bitmaps -/

def isZoneOccupied (zone_num : Word) : Op Bool := do
  let (sb, super) ← getSuperblock dev
  let bit := (zone_num - super.firstZone).toNat
  let _ ← blockReadArbitrary dev (super.zmapStart dev.bs + bit / 8) 1
  let occupied ← reads fun fs => Minix3.isZoneOccupied dev.bs fs.disk zone_num
  kfree sb
  pure occupied

def isInodeOccupied (inode_num : Word) : Op Bool :=
  if inode_num = 0 then pure false
  else do
    let (sb, _) ← getSuperblock dev
    let _ ← blockReadArbitrary dev (imapStart dev.bs + (inode_num - 1).toNat / 8) 1
    let occupied ← reads fun fs => Minix3.isInodeOccupied dev.bs fs.disk inode_num
    kfree sb
    pure occupied

def isZoneInRange (zone_num : Word) : Op Bool := do
  let (sb, _) ← getSuperblock dev
  let in_range ← reads fun fs => Minix3.isZoneInRange fs.disk zone_num
  kfree sb
  pure in_range

def isInodeInRange (inode_num : Word) : Op Bool :=
  if inode_num = 0 then pure false
  else do
    let (sb, _) ← getSuperblock dev
    let in_range ← reads fun fs => Minix3.isInodeInRange fs.disk inode_num
    kfree sb
    pure in_range

/-- A byte of a bitmap with bit `k` written. -/
def withBit (byte : Byte) (k : ℕ) (as : Bool) : Byte :=
  if as then byte ||| 1#8 <<< k else byte &&& ~~~(1#8 <<< k)

/-- A bit that is set as asked already is left alone, whether it is in range or not. -/
def whetherChanges (occupied as : Bool) (in_range : Op Bool) : Op Bool :=
  if occupied = as then pure false else in_range

def setZoneAs (zone_num : Word) (as : Bool) : Op Unit := do
  let (sb, super) ← getSuperblock dev
  if zone_num < super.firstZone then kfree sb
  else
    let bit := (zone_num - super.firstZone).toNat
    let zone_byte_addr := super.zmapStart dev.bs + bit / 8
    let zone_byte ← blockReadArbitrary dev zone_byte_addr 1
    let occupied ← isZoneOccupied dev zone_num
    let changes ← whetherChanges occupied as (isZoneInRange dev zone_num)
    let zone_byte := fun o => if changes then withBit (zone_byte o) (bit % 8) as else zone_byte o
    blockWriteArbitrary dev zone_byte zone_byte_addr 1
    kfree sb

def setInodeAs (inode_num : Word) (as : Bool) : Op Unit :=
  if inode_num = 0 then pure ()
  else do
    let (sb, _) ← getSuperblock dev
    let bit := (inode_num - 1).toNat
    let inode_byte_addr := imapStart dev.bs + bit / 8
    let inode_byte ← blockReadArbitrary dev inode_byte_addr 1
    let occupied ← isInodeOccupied dev inode_num
    let changes ← whetherChanges occupied as (isInodeInRange dev inode_num)
    let inode_byte := fun o => if changes then withBit (inode_byte o) (bit % 8) as else inode_byte o
    blockWriteArbitrary dev inode_byte inode_byte_addr 1
    kfree sb

def setZoneOccupied (zone_num : Word) : Op Unit := setZoneAs dev zone_num true
def setZoneUnoccupied (zone_num : Word) : Op Unit := setZoneAs dev zone_num false
def setInodeOccupied (inode_num : Word) : Op Unit := setInodeAs dev inode_num true
def setInodeUnoccupied (inode_num : Word) : Op Unit := setInodeAs dev inode_num false

/-! ## Allocators -/

def setZoneToZero (which_zone : Word) : Op Unit := do
  let buffer ← kcalloc dev
  blockWriteArbitrary dev (fun _ => 0) (baddr32 dev.bs which_zone) dev.bs
  kfree buffer

def availableZoneFrom : ℕ → Word → Op Word
  | 0, _ => hang
  | n + 1, cursor => do
    let in_range ← isZoneInRange dev cursor
    let cursor := if !in_range then 0 else cursor
    let occupied ← isZoneOccupied dev cursor
    if !occupied then pure cursor else availableZoneFrom n (cursor + 1)

/-- Where the search starts. -/
def zoneCursor (test_available_zone_num : Word) : Op Word :=
  if test_available_zone_num = 0 then do
    let (sb, super) ← getSuperblock dev
    kfree sb
    pure super.firstZone
  else pure test_available_zone_num

def getAvailableZone : Op Word := do
  let test_available_zone_num ← reads fun fs => fs.zoneCursor
  let cursor ← zoneCursor dev test_available_zone_num
  let zone ← availableZoneFrom dev rounds cursor
  updates fun fs => { fs with zoneCursor := zone }
  setZoneToZero dev zone
  pure zone

def availableInodeFrom : ℕ → Word → Op Word
  | 0, _ => hang
  | n + 1, cursor => do
    let in_range ← isInodeInRange dev cursor
    let cursor := if !in_range then 1 else cursor
    let occupied ← isInodeOccupied dev cursor
    if !occupied then pure cursor else availableInodeFrom n (cursor + 1)

def getAvailableInode : Op Word := do
  let test_available_inode_num ← reads fun fs => fs.inodeCursor
  let inode_num ← availableInodeFrom dev rounds test_available_inode_num
  updates fun fs => { fs with inodeCursor := inode_num }
  pure inode_num

/-! ## The zones of a file -/

/-- Behind `freeall`: what the walk has done to the device, and `return_zone`, which is `garbage`
if nothing has assigned it. -/
def leaving (garbage : Word) (stop : Except Stop Walk) : Effect (Walk × Word) := fun m =>
  match stop with
  | .ok w => some ((w, garbage), { m with fs := w.fs })
  | .error (.found w return_zone) => some ((w, return_zone), { m with fs := w.fs })
  | .error .hung => none

def leaveWalk (garbage : Word) (stop : Except Stop Walk) : Op (Walk × Word) :=
  onData (leaving garbage stop)

/-- `minix3_zone_walker`. The buffers that a walk has not come to are `NULL` at `freeall`. -/
def zoneWalker (f_inode : Inode) (zone_index : ℕ) (set : Option Word) : Op (Walk × Word) := do
  let stack ← unknown
  let garbage := load32 stack 0
  let fs ← reads id
  let zeroes ← kcalloc dev
  match walkDirect dev.bs zone_index set 7 ⟨fs, f_inode, 0, f_inode.size.toNat⟩ with
  | .error stop => do
    kfree zeroes
    leaveWalk garbage (.error stop)
  | .ok w => do
    let buffer_I ← kcalloc dev
    match walkIndirect dev.bs zone_index set w with
    | .error stop => do
      kfree zeroes
      kfree buffer_I
      leaveWalk garbage (.error stop)
    | .ok w => do
      let buffer_II ← kcalloc dev
      match walkDoublyIndirect dev.bs zone_index set w with
      | .error stop => do
        kfree zeroes
        kfree buffer_I
        kfree buffer_II
        leaveWalk garbage (.error stop)
      | .ok w => do
        let buffer_III ← kcalloc dev
        let stop := walkTriplyIndirect dev.bs zone_index set w
        kfree zeroes
        kfree buffer_I
        kfree buffer_II
        kfree buffer_III
        leaveWalk garbage stop

/-- Address and remaining size. -/
def gzbars (f_inode : Inode) (zone_index : ℕ) : Op (ℕ × ℕ) := do
  let (w, zone) ← zoneWalker dev f_inode zone_index none
  pure (baddr dev.bs zone, w.remaining)

def getZone (f_inode : Inode) (zone_index : ℕ) : Op Word := do
  let (_, zone) ← zoneWalker dev f_inode zone_index none
  pure zone

/-- The inode after the call, and the zone that it returns. -/
def setZoneTo (f_inode : Inode) (zone_index : ℕ) (target : Word) : Op (Inode × Word) := do
  let (w, zone) ← zoneWalker dev f_inode zone_index (some target)
  pure (w.inode, zone)

def clearZone (f_inode : Inode) (zone_index : ℕ) : Op Inode := do
  let cleared_zone ← getZone dev f_inode zone_index
  setZoneUnoccupied dev cleared_zone
  let (f_inode, _) ← setZoneTo dev f_inode zone_index 0
  pure f_inode

/-- The loop of `minix3_get_last_file_zone`. -/
def lastFileZoneFrom (f_inode : Inode) : ℕ → Word → Op Word
  | 0, _ => hang
  | n + 1, zone_num => do
    let (_, remaining_size) ← gzbars dev f_inode zone_num.toNat
    if dev.bs < remaining_size then lastFileZoneFrom f_inode n (zone_num + 1) else pure zone_num

def getLastFileZone (f_inode : Inode) : Op Word :=
  if f_inode.size = 0 then pure 0
  else lastFileZoneFrom dev f_inode rounds ((f_inode.size - 1) / BitVec.ofNat 32 dev.bs)

/-- The file index behind the last zone. -/
def nextZone (f_inode : Inode) : Op Word :=
  if f_inode.size = 0 then pure 0
  else do
    let last ← getLastFileZone dev f_inode
    pure (last + 1)

/-- The inode after the call, and the address of the new zone in 32 bits. -/
def appendZone (f_inode : Inode) : Op (Inode × ℕ) := do
  let next_zone ← nextZone dev f_inode
  let new_zone ← getAvailableZone dev
  setZoneOccupied dev new_zone
  let (f_inode, zone) ← setZoneTo dev f_inode next_zone.toNat new_zone
  pure (f_inode, baddr32 dev.bs zone)

/-- The device and the inode after `clear_all_end`. -/
def leaveClear (c : Clear) : Op Inode := do
  updates fun fs => { fs with disk := c.disk }
  pure c.inode

/-- `minix3_clear_all_zones`. The words behind `buffer_I` are unknown. -/
def clearAllZones (f_inode : Inode) : Op Inode := do
  let behind ← unknown
  let disk ← reads fun fs => fs.disk
  let c := clearDirect dev.bs (Clear.start disk f_inode)
  if c.remaining = 0 then leaveClear c
  else do
    let buffer_I ← kcalloc dev
    let c := clearIndirect dev.bs c
    if c.remaining = 0 then do
      kfree buffer_I
      leaveClear c
    else do
      let buffer_II ← kcalloc dev
      let c := clearDoubly dev.bs (fun k => load32 behind (4 * k)) c
      if c.remaining = 0 then do
        kfree buffer_I
        kfree buffer_II
        leaveClear c
      else do
        let buffer_III ← kcalloc dev
        let c := clearTriply dev.bs c
        kfree buffer_I
        kfree buffer_II
        kfree buffer_III
        leaveClear c

/-! ## Inodes -/

/-- `minix3_inode_transfer_common`: `sb` stays allocated. -/
def inodeTransferCommon {α : Type} (inode_num : Word) (transfer : ℕ → Op α) : Op (ℕ × α) := do
  let (_, sb) ← getSuperblock dev
  let inode_offset := sb.inodeStart dev.bs + (inode_num - 1).toNat * inodeSize
  let a ← transfer inode_offset
  pure (0, a)

def getInode (inode_num : Word) : Op (ℕ × Inode) :=
  inodeTransferCommon dev inode_num fun inode_offset => do
    let buffer ← blockReadArbitrary dev inode_offset inodeSize
    pure (Inode.load buffer 0)

def putInode (inode_num : Word) (inode : Inode) : Op (ℕ × Unit) :=
  inodeTransferCommon dev inode_num fun inode_offset =>
    blockWriteArbitrary dev inode.bytes inode_offset inodeSize

/-! ## Files -/

/-- The variables of `minix3_append_to_file`: `*f_inode`, and what is left to write. -/
structure Append where
  node : Inode
  buffer : Mem
  size : Word

def Append.written (a : Append) (write_size : Word) : Append where
  node := { a.node with size := a.node.size + write_size }
  buffer := window a.buffer write_size.toNat
  size := a.size - write_size

/-- To the rest of the last block. -/
def fillBlock (address_on_block remaining_file_size : ℕ) (a : Append) : Op Append :=
  if address_on_block ≠ 0 then do
    let remaining_block_size := BitVec.ofNat 32 dev.bs - BitVec.ofNat 32 remaining_file_size
    let write_size := if remaining_block_size < a.size then remaining_block_size else a.size
    blockWriteArbitrary dev a.buffer (address_on_block + remaining_file_size) write_size.toNat
    pure (a.written write_size)
  else pure a

/-- `while(size)` -/
def appendBlocks : ℕ → Append → Op Inode
  | 0, _ => hang
  | n + 1, a =>
    if a.size = 0 then pure a.node
    else do
      let (node, address_on_block) ← appendZone dev a.node
      let write_size := if BitVec.ofNat 32 dev.bs < a.size then BitVec.ofNat 32 dev.bs else a.size
      blockWriteArbitrary dev a.buffer address_on_block write_size.toNat
      appendBlocks n ({ a with node }.written write_size)

def appendToFile (file_inode_num : Word) (buffer : Mem) (size : Word) : Op ℕ := do
  let f_inode ← kcalloc dev
  let (retval, node) ← getInode dev file_inode_num
  if retval ≠ 0 then do
    kfree f_inode
    pure retval
  else do
    let zone ← kcalloc dev
    let i ← getLastFileZone dev node
    let (address_on_block, remaining_file_size) ← gzbars dev node i.toNat
    let a ← fillBlock dev address_on_block remaining_file_size ⟨node, buffer, size⟩
    let node ← appendBlocks dev rounds a
    kfree zone
    let _ ← putInode dev file_inode_num node
    kfree f_inode
    pure 0

/-! ## Directories -/

/-- A string of C without its terminator. -/
structure CString where
  chars : List Byte
  no_nul : 0 ∉ chars

theorem nil_no_nul : (0 : Byte) ∉ ([] : List Byte) := List.not_mem_nil

/-- `samestr` of the string at `a` and one that has these characters. -/
def samestr (m : Mem) : ℕ → List Byte → Bool
  | a, [] => m a = 0
  | a, c :: cs => m a = c && samestr m (a + 1) cs

/-- `sizeof(mx3_dir_entry_t)` -/
def dirEntrySize : ℕ := 64

/-- A fresh `mx3_dir_entry_t` after `mstrcpy`; a name of more than 59 characters runs on behind
it. -/
def dirEntry (inode_num : Word) (name : CString) : Mem := fun o =>
  if o < 4 then leByte inode_num o else name.chars.getD (o - 4) 0

/-- `dirs[j].inode_num` -/
def entryInode (dirs : Mem) (j : ℕ) : Word := load32 dirs (j * dirEntrySize)

def dirsPerBlock (bs : ℕ) : ℕ := bs / dirEntrySize

/-- The first entry in use with this name. -/
def findName (bs : ℕ) (dirs : Mem) (name : CString) : Option ℕ :=
  (List.range (dirsPerBlock bs)).find? fun j =>
    entryInode dirs j ≠ 0 && samestr dirs (j * dirEntrySize + 4) name.chars

/-- The first entry for this inode. -/
def findInode (bs : ℕ) (dirs : Mem) (inode_num : Word) : Option ℕ :=
  (List.range (dirsPerBlock bs)).find? fun j => entryInode dirs j = inode_num

def MX3_RETURN_CODE_NOT_FOUND : ℕ := 101
def MX3_RETURN_CODE_NOT_DIRECTORY : ℕ := 102
def MX3_RETURN_CODE_IS_DIRECTORY : ℕ := 103
def MX3_RETURN_CODE_NOT_EMPTY : ℕ := 104
def MX3_RETURN_CODE_UNKNOWN_ERROR : ℕ := 105

/-- What `minix3_get_inode_from_name` returns, with `*inode_num` and `*fill` where it sets them. -/
inductive Lookup
  | nonDirectory
  | notFound
  | file (inode_num : Word) (fill : Inode)
  | directory (inode_num : Word) (fill : Inode)

namespace Lookup

def retval : Lookup → ℕ
  | nonDirectory => 1
  | notFound => MX3_RETURN_CODE_NOT_FOUND
  | file _ _ => MX3_RETURN_CODE_NOT_DIRECTORY
  | directory _ _ => 0

def found : Lookup → Option (Word × Inode)
  | file inode_num fill => some (inode_num, fill)
  | directory inode_num fill => some (inode_num, fill)
  | _ => none

def ofFound : Option (Word × Inode) → Lookup
  | none => notFound
  | some (inode_num, fill) =>
    if !fill.isDirectory then file inode_num fill else directory inode_num fill

end Lookup

/-- The directory zone at an address, in a buffer whose surroundings are unknown. -/
def readDirs (address_on_block : ℕ) : Op Mem := do
  let behind ← unknown
  let zone ← blockReadArbitrary dev address_on_block dev.bs
  pure (blit behind 0 dev.bs zone)

/-- The loop of `minix3_get_inode_from_name` over the zones; a match ends only the inner one. -/
def searchZones (dir : Inode) (name : CString) :
    ℕ → ℕ → Option (Word × Inode) → Op (Option (Word × Inode))
  | 0, _, found => pure found
  | n + 1, i, found => do
    let (address_on_block, remaining_size) ← gzbars dev dir i
    if remaining_size = 0 then pure found
    else if address_on_block = 0 then searchZones dir name n (i + 1) found
    else do
      let dirs ← readDirs dev address_on_block
      match findName dev.bs dirs name with
      | none => searchZones dir name n (i + 1) found
      | some j => do
        let (_, fill) ← getInode dev (entryInode dirs j)
        searchZones dir name n (i + 1) (some (entryInode dirs j, fill))

def getInodeFromName (dir : Inode) (name : CString) : Op Lookup :=
  if !dir.isDirectory then pure .nonDirectory
  else do
    let zone ← kcalloc dev
    let found ← searchZones dev dir name (getFileMaxZones dev.bs) 0 none
    kfree zone
    pure (Lookup.ofFound found)

/-- The loop that takes an inode out of a directory. -/
def removeEntries (dir : Inode) (child_inode_num : Word) : ℕ → ℕ → Op Unit
  | 0, _ => pure ()
  | n + 1, i => do
    let (zone_baddr, remaining_size) ← gzbars dev dir i
    if remaining_size = 0 then pure ()
    else if zone_baddr = 0 then removeEntries dir child_inode_num n (i + 1)
    else do
      let dirs ← readDirs dev zone_baddr
      match findInode dev.bs dirs child_inode_num with
      | none => removeEntries dir child_inode_num n (i + 1)
      | some j => do
        let entry := window (store32 dirs (j * dirEntrySize) 0) (j * dirEntrySize)
        blockWriteArbitrary dev entry (zone_baddr + j * dirEntrySize) dirEntrySize
        removeEntries dir child_inode_num n (i + 1)

/-- The inode of a new file. -/
def newInode (f_mode f_uid f_gid : BitVec 16) : Inode :=
  { Inode.zero with
    mode := f_mode, gid := f_gid, uid := f_uid, nlinks := 1
    atime := 0xaaaaaaaa, ctime := 0xcccccccc, mtime := 0x22222222 }

/-- The beginning of the calls on a parent directory; the rest gets `dir` and `*dir`. -/
def onParent (parent_inode_num : Word) (rest : ℕ → Inode → Op ℕ) : Op ℕ := do
  let dir ← kcalloc dev
  let (retval, dirNode) ← getInode dev parent_inode_num
  if retval ≠ 0 then do
    kfree dir
    pure retval
  else if !dirNode.isDirectory then do
    kfree dir
    pure 2
  else rest dir dirNode

/-- `dir` stays allocated if the name exists, `new_dir_entry` if it does not. -/
def touchCommon (parent_inode_num : Word) (fname : CString) (f_mode f_uid f_gid : BitVec 16) :
    Op ℕ :=
  onParent dev parent_inode_num fun dir dirNode => do
    let pn ← kcalloc dev
    let lookup ← getInodeFromName dev dirNode fname
    kfree pn
    if lookup.retval ≠ MX3_RETURN_CODE_NOT_FOUND then pure 4
    else do
      let new_inode_num ← getAvailableInode dev
      setInodeOccupied dev new_inode_num
      let new_inode ← kcalloc dev
      let _new_dir_entry ← kcalloc dev
      let _ ← putInode dev new_inode_num (newInode f_mode f_uid f_gid)
      let entry := dirEntry new_inode_num fname
      let _ ← appendToFile dev parent_inode_num entry (BitVec.ofNat 32 dirEntrySize)
      kfree dir
      kfree new_inode
      pure 0

def touchReg (parent_inode_num : Word) (fname : CString) : Op ℕ :=
  touchCommon dev parent_inode_num fname (MX3_MODE_REGULAR ||| MX3_777) MX3_UID_MISHLER
    MX3_GID_MISHLER

def touchDir (parent_inode_num : Word) (fname : CString) : Op ℕ :=
  touchCommon dev parent_inode_num fname (MX3_MODE_DIRECTORY ||| MX3_777) MX3_UID_MISHLER
    MX3_GID_MISHLER

/-- `if(child_inode->size > 0)` -/
def clearContents (child_inode : Inode) : Op Inode :=
  if 0 < child_inode.size then clearAllZones dev child_inode else pure child_inode

def rm (parent_inode_num : Word) (fname : CString) : Op ℕ :=
  onParent dev parent_inode_num fun dir dirNode => do
    let child_inode ← kcalloc dev
    let lookup ← getInodeFromName dev dirNode fname
    match lookup with
    | .file child_inode_num childNode => do
      let _ ← clearContents dev childNode
      setInodeUnoccupied dev child_inode_num
      kfree child_inode
      let zone ← kcalloc dev
      removeEntries dev dirNode child_inode_num (getFileMaxZones dev.bs) 0
      kfree zone
      kfree dir
      pure 0
    | _ => do
      kfree dir
      kfree child_inode
      pure MX3_RETURN_CODE_IS_DIRECTORY

def dot : CString := ⟨[0x2e], by decide⟩
def dotDot : CString := ⟨[0x2e, 0x2e], by decide⟩

def mkdir (parent_inode_num : Word) (dirname : CString) : Op ℕ := do
  let retval ← touchDir dev parent_inode_num dirname
  if retval ≠ 0 then pure retval
  else do
    let dir ← kcalloc dev
    let new_inode ← kcalloc dev
    let (_, dirNode) ← getInode dev parent_inode_num
    -- `new_inode_num` is not initialised, `*new_inode` is zero
    let stack ← unknown
    let lookup ← getInodeFromName dev dirNode dirname
    let (new_inode_num, newNode) := lookup.found.getD (load32 stack 0, Inode.zero)
    let _ ← putInode dev parent_inode_num { dirNode with nlinks := dirNode.nlinks + 1 }
    let _ ← putInode dev new_inode_num { newNode with nlinks := newNode.nlinks + 1 }
    kfree dir
    kfree new_inode
    let new_dot ← kcalloc dev
    let new_dot_dot ← kcalloc dev
    let size := BitVec.ofNat 32 dirEntrySize
    let _ ← appendToFile dev new_inode_num (dirEntry new_inode_num dot) size
    let _ ← appendToFile dev new_inode_num (dirEntry parent_inode_num dotDot) size
    kfree new_dot
    kfree new_dot_dot
    pure 0

/-- Both look-ups are for `.`. -/
def rmdirCheck (dir_node : Inode) : Op ℕ :=
  if dir_node.size.toNat ≠ 2 * dirEntrySize then pure MX3_RETURN_CODE_NOT_EMPTY
  else do
    let pn ← kcalloc dev
    let dotLookup ← getInodeFromName dev dir_node dot
    let dotDotLookup ← getInodeFromName dev dir_node dot
    kfree pn
    if dotLookup.retval ≠ 0 ∨ dotDotLookup.retval ≠ 0 then pure MX3_RETURN_CODE_UNKNOWN_ERROR
    else pure 0

/-- `dir` and `child_inode` stay allocated if the last zone of the child is not its first. -/
def rmdir (parent_inode_num : Word) (dirname : CString) : Op ℕ :=
  onParent dev parent_inode_num fun dir dirNode => do
    let child_inode ← kcalloc dev
    let lookup ← getInodeFromName dev dirNode dirname
    match lookup with
    | .directory child_inode_num childNode => do
      let retval ← rmdirCheck dev childNode
      if retval ≠ 0 then do
        kfree dir
        kfree child_inode
        pure retval
      else if child_inode_num = 1 then do
        kfree dir
        kfree child_inode
        pure MX3_RETURN_CODE_UNKNOWN_ERROR
      else do
        let child_data_zone ← getLastFileZone dev childNode
        if child_data_zone ≠ 0 then pure MX3_RETURN_CODE_UNKNOWN_ERROR
        else do
          let _ ← clearZone dev childNode child_data_zone.toNat
          setInodeUnoccupied dev child_inode_num
          kfree child_inode
          let zone ← kcalloc dev
          removeEntries dev dirNode child_inode_num (getFileMaxZones dev.bs) 0
          kfree zone
          let _ ← putInode dev parent_inode_num { dirNode with nlinks := dirNode.nlinks - 1 }
          kfree dir
          pure 0
    | lookup => do
      kfree dir
      kfree child_inode
      pure lookup.retval

end Calls

end Minix3.FileOps
