import DucreuOS.EntryRemoval

/-! # A directory is removed

`minix3_rmdir` in a tree of directories, for a child that passes the checks. -/
namespace Minix3.FileOps

open ByteMemory LiveBlocks

section Removing

variable {dev : Mount} {fs : Fs} {parent n : Word} {name : CString}

/-- The end of the call. -/
theorem unlink_entry {fs₈ : Fs} {S : Set Word} {dir zone : ℕ}
    (hzone : zone ∉ (insert dir ∅ : Finset ℕ)) (ht : Tree dev.bs fs.disk)
    (hp : Reachable dev.bs fs.disk parent) (hne : parent ≠ n)
    (hb : BoundTo dev.bs fs.disk parent name n) (hn : n ≠ 0)
    (honly : OnlyName dev.bs fs.disk parent name n)
    (hg : GivenBack dev.bs fs.disk n S fs₈.disk) :
    Ensures (insert zone (insert dir ∅)) (At fs₈) (do
      removeEntries dev (Minix3.getInode dev.bs fs.disk parent) n (getFileMaxZones dev.bs) 0
      kfree zone
      let _ ← putInode dev parent { Minix3.getInode dev.bs fs.disk parent with
        nlinks := (Minix3.getInode dev.bs fs.disk parent).nlinks - 1 }
      kfree dir
      pure 0) fun r m => r = 0 ∧ NodeRemoved dev.bs fs.disk parent n S (-1) m.fs.disk := by
  have hpuse := (ht.reachable hp).1
  obtain ⟨disk', hremoved, hloop⟩ := removeEntries_sound ht hp hne hb hn honly hg
  apply hloop.bind
  intro _
  apply Ensures.release hzone
  apply (putInode_ensures parent _).bind
  intro _
  apply Ensures.release (Finset.notMem_empty dir)
  apply ensures_pure
  intro m hm
  rw [hm]
  have hrelink := hremoved.consistent.relink ((hremoved.inUse parent).mpr ⟨hpuse, hne⟩) (-1)
  rw [hremoved.rest, add_zero, ← sub_eq_add_neg] at hrelink
  exact ⟨rfl, hremoved.relink ht hp hne hrelink⟩

/-- A directory that passes the checks is removed, if no other directory has a name for it. -/
theorem rmdir_sound (ht : Tree dev.bs fs.disk) (hp : Reachable dev.bs fs.disk parent)
    (hb : BoundTo dev.bs fs.disk parent name n)
    (hdir : isDirectory dev.bs fs.disk n = true) (hr : Removable dev.bs fs.disk n)
    (hne : parent ≠ n) (honly : OnlyName dev.bs fs.disk parent name n) :
    Ensures ∅ (At fs) (rmdir dev parent name) fun r m =>
      r = 0 ∧ NodeRemoved dev.bs fs.disk parent n
        {fileZone dev.bs fs.disk (Minix3.getInode dev.bs fs.disk n) 0} (-1) m.fs.disk := by
  have hpuse := (ht.reachable hp).1
  have hreach : Reachable dev.bs fs.disk n := .step hp hb hdir
  have hn := (ht.reachable hreach).1
  have hparent := ht.directory parent hp
  have hsound := (ht.directory n hreach).sound
  apply onParent_sound (ht.reachable hp).2
  intro dir
  apply Ensures.allocate
  intro child_inode hchild
  apply (getInodeFromName_sound hparent (ht.reachable hp).2 name).bind
  intro lookup
  apply Ensures.given
  intro hfinds
  obtain rfl : lookup = .directory n (Minix3.getInode dev.bs fs.disk n) := by
    rw [hfinds.bound n hb]
    rw [isDirectory] at hdir
    simp only [Lookup.ofFound, hdir, Bool.not_true, Bool.false_eq_true, if_false]
  apply (rmdirCheck_sound ht hreach).bind
  intro retval
  apply Ensures.given
  intro _
  apply Ensures.given
  intro hzero
  obtain rfl : retval = 0 := hzero.mpr ⟨hr.size, hr.dot⟩
  rw [if_neg (not_not.mpr rfl), if_neg hr.notRoot]
  apply (getLastFileZone_sound hsound).bind
  intro child_data_zone
  apply Ensures.given
  intro hlast
  obtain rfl : child_data_zone = 0 := by
    apply BitVec.eq_of_toNat_eq
    rw [hlast, hr.size, Nat.div_eq_of_lt]
    · rfl
    · have hblock := hr.block
      unfold dirEntrySize at *
      omega
  rw [if_neg (not_not.mpr rfl)]
  apply (clearZone_first _).bind
  intro node
  apply Ensures.given
  intro _
  apply (writing_ensures (setInodeAs_computes n false)).bind
  intro _
  apply Ensures.release hchild
  apply Ensures.allocate
  intro zone hzone
  apply unlink_entry hzone ht hp hne hb hn.1.1 honly
  have hfreed := (Freed.refl dev.bs fs.disk).free ht.layout.map
    (fileZone dev.bs fs.disk (Minix3.getInode dev.bs fs.disk n) 0)
  rw [insert_empty_eq] at hfreed
  apply ht.giveBack hn hfreed
  intro m hm hmn p hpin hz
  have hfront : (Node.data 0).In dev.bs :=
    data_in_front (Nat.lt_of_lt_of_le (by decide : 0 < 7) (Nat.le_add_right 7 _))
  exact ht.apart m n hm hn hmn p (.data 0) hpin hfront hz

end Removing

end Minix3.FileOps
