import DucreuOS.EntryRemoval

/-! # A file is removed

`minix3_rm` in a tree of directories, for a file whose zones `minix3_clear_all_zones` comes to. -/
namespace Minix3

open ByteMemory

section Shallow

variable {bs : ℕ} {disk : Mem} {inode : Inode}

/-- The size is that of the zones. -/
theorem Sound.sizeOfZones (h : Sound bs disk inode) : SizeOfZones bs disk inode := by
  have hpos := h.layout.pos
  -- the zones of the size
  obtain ⟨K, hK, hK'⟩ : ∃ K, inode.size.toNat ≤ bs * K ∧ bs * K < inode.size.toNat + bs := by
    refine ⟨(inode.size.toNat + bs - 1) / bs, ?_, ?_⟩
    · have hlt := Nat.lt_mul_div_succ (inode.size.toNat + bs - 1) hpos
      rw [Nat.mul_add_one] at hlt
      omega
    · have hle := Nat.mul_div_le (inode.size.toNat + bs - 1) bs
      omega
  have hbelow (j : ℕ) : j < K ↔ j * bs < inode.size.toNat := by
    constructor
    · intro hj
      have hle := Nat.mul_le_mul_right bs (Nat.succ_le_of_lt hj)
      rw [Nat.succ_mul, Nat.mul_comm K] at hle
      omega
    · intro hj
      by_contra hge
      have hle := Nat.mul_le_mul_right bs (not_lt.mp hge)
      rw [Nat.mul_comm K] at hle
      omega
  have hmost : K ≤ blockStart bs (blocks bs) := by
    by_contra hgt
    have hfront := h.front ((hbelow _).mp (not_le.mp hgt))
    exact absurd hfront (not_lt.mpr (blockStart_mono bs (Nat.le_add_right _ _)))
  have hcount : Nat.count (fun j => fileZone bs disk inode j ≠ 0) (blockStart bs (blocks bs)) = K := by
    obtain ⟨m, hm⟩ := Nat.exists_eq_add_of_le hmost
    have hmapped (j : ℕ) (hj : j < K + m) : fileZone bs disk inode j ≠ 0 ↔ j < K :=
      (h.whole.mapped j (hj.trans_eq hm.symm)).trans (hbelow j).symm
    have hlow : Nat.count (fun j => fileZone bs disk inode j ≠ 0) K = K := by
      rw [Nat.count_iff_forall]
      exact fun j hj => (hmapped j (by omega)).mpr hj
    have hhigh : Nat.count (fun j => fileZone bs disk inode (K + j) ≠ 0) m = 0 := by
      rw [Nat.count_iff_forall_not]
      exact fun j hj hz => absurd ((hmapped (K + j) (by omega)).mp hz) (by omega)
    rw [hm, Nat.count_add, hlow, hhigh, Nat.add_zero]
  simp only [SizeOfZones, hcount]
  exact ⟨hK, hK'⟩

/-- A file without bytes has no zones. -/
theorem Sound.no_zones (h : Sound bs disk inode) (hsh : Shallow bs disk inode)
    (hsize : inode.size = 0) {p : Node} (hp : p.In bs) : nodeZone bs disk inode p = 0 := by
  have hempty (j : ℕ) (hj : (Node.data j).In bs) : fileZone bs disk inode j = 0 := by
    by_contra hz
    have hlt := (h.whole.mapped j hj).mp hz
    rw [hsize] at hlt
    exact absurd hlt (Nat.not_lt_zero _)
  by_contra hz
  rcases shallow_nodes hsh.1 hsh.2.1 hp hz with ⟨j, -, rfl⟩ | rfl
  · exact hz (hempty j hp)
  · obtain ⟨-, j, -, hj, hjz⟩ := hsh.2.2 hz
    have hone : 1 ≤ blocks bs := by unfold blocks; omega
    exact hjz (hempty j (hj.trans_le (blockStart_mono bs hone)))

end Shallow

namespace FileOps

open LiveBlocks

section Removing

variable {dev : Mount} {fs : Fs} {parent n : Word} {name : CString}

/-- The zones are free afterwards. -/
theorem clearContents_sound {inode : Inode} (hs : Sound dev.bs fs.disk inode)
    (hsh : Shallow dev.bs fs.disk inode) :
    Ensures ∅ (At fs) (clearContents dev inode) fun _ m =>
      ∃ disk', Freed dev.bs (treeZones dev.bs fs.disk inode) fs.disk disk' ∧
        At (fs.withDisk disk') m := by
  apply Ensures.ite
  · intro _
    apply (clearAllZones_computes inode).ensures
    rintro m rfl
    exact ⟨_, _, rfl, _, freed_of_shallow hs.layout.map hs.marked hs.sizeOfZones hsh _, rfl⟩
  · intro hsize
    have hzero : inode.size = 0 := by
      apply BitVec.eq_of_toNat_eq
      rw [BitVec.lt_def] at hsize
      exact Nat.eq_zero_of_not_pos hsize
    have hnone : Freed dev.bs (treeZones dev.bs fs.disk inode) fs.disk fs.disk := by
      apply (Freed.refl dev.bs fs.disk).congr
      intro z hr
      refine iff_of_false (Set.notMem_empty z) ?_
      rintro ⟨p, hp, rfl⟩
      exact hs.layout.ne_zero hr (hs.no_zones hsh hzero hp)
    apply ensures_pure
    exact fun m hm => ⟨fs.disk, hnone, hm⟩

/-- A file is removed, if there is no other name for it. -/
theorem rm_sound (ht : Tree dev.bs fs.disk) (hp : Reachable dev.bs fs.disk parent)
    (hb : BoundTo dev.bs fs.disk parent name n) (hfile : isDirectory dev.bs fs.disk n = false)
    (hw : Whole dev.bs fs.disk (Minix3.getInode dev.bs fs.disk n))
    (hsh : Shallow dev.bs fs.disk (Minix3.getInode dev.bs fs.disk n))
    (honly : OnlyName dev.bs fs.disk parent name n) :
    Ensures ∅ (At fs) (rm dev parent name) fun r m =>
      r = 0 ∧ NodeRemoved dev.bs fs.disk parent n
        (treeZones dev.bs fs.disk (Minix3.getInode dev.bs fs.disk n)) 0 m.fs.disk := by
  have hn := ht.entry parent n name hp hb
  have hne : parent ≠ n := by
    rintro rfl
    rw [isDirectory, (ht.reachable hp).2] at hfile
    cases hfile
  apply onParent_sound (ht.reachable hp).2
  intro dir
  apply Ensures.allocate
  intro child_inode hchild
  apply (getInodeFromName_sound (ht.directory parent hp) (ht.reachable hp).2 name).bind
  intro lookup
  apply Ensures.given
  intro hfinds
  obtain rfl : lookup = .file n (Minix3.getInode dev.bs fs.disk n) := by
    rw [hfinds.bound n hb]
    rw [isDirectory] at hfile
    simp only [Lookup.ofFound, hfile, Bool.not_false, if_true]
  apply (clearContents_sound (ht.sound hn hw) hsh).bind
  intro _
  apply ensures_at (P := fun fs' => ∃ disk', Freed dev.bs
    (treeZones dev.bs fs.disk (Minix3.getInode dev.bs fs.disk n)) fs.disk disk' ∧
      fs' = fs.withDisk disk')
  rintro _ ⟨disk', hfreed, rfl⟩
  apply (writing_ensures (setInodeAs_computes n false)).bind
  intro _
  apply Ensures.release hchild
  apply Ensures.allocate
  intro zone hzone
  have hgiven := ht.giveBack hn hfreed fun m hm hmn p hpin hz hmem => by
    obtain ⟨q, hq, heq⟩ := hmem
    exact ht.apart m n hm hn hmn p q hpin hq hz heq.symm
  change GivenBack dev.bs fs.disk n _
    (fs.withDisk (Minix3.setInodeUnoccupied dev.bs disk' n)).disk at hgiven
  obtain ⟨disk'', hremoved, hloop⟩ := removeEntries_sound ht hp hne hb hn.1.1 honly hgiven
  apply hloop.bind
  intro _
  apply Ensures.release hzone
  apply Ensures.release (Finset.notMem_empty dir)
  apply ensures_pure
  intro m hm
  rw [hm]
  exact ⟨rfl, hremoved⟩

end Removing

end FileOps

end Minix3
