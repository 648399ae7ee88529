import DucreuOS.MakeDirectory

/-! # Zones, inodes and entries that are given back

What clearing a bit of a bitmap does to the files of a device, and the loop of `minix3_rm` and
`minix3_rmdir` that clears the entry of an inode. -/
namespace Minix3

open ByteMemory

/-! ## A zone and an inode are given back -/

section GivenBack

variable {bs : ℕ} {disk disk' : Mem} {inode : Inode} {m n z : Word} {S : Set Word}

theorem ZoneLayout.map (hl : ZoneLayout bs disk) : MapLayout bs disk := ⟨hl.super, hl.bitmap⟩

theorem Freed.marked_iff (hf : Freed bs S disk disk') (hl : MapLayout bs disk) (z : Word) :
    Marked bs disk' z ↔ Marked bs disk z ∧ z ∉ S := by
  constructor
  · intro hz
    have hr : isZoneInRange disk z = true := by rw [← hf.range_eq hl]; exact hz.1
    have hbit := hz.2
    rw [occupied_inRange hz.1, hf.super hl] at hbit
    have hm : Marked bs disk z := by
      refine ⟨hr, ?_⟩
      rw [occupied_inRange hr]
      exact ((hf.bits (zoneBit disk z)).mp hbit).1
    exact ⟨hm, (hf.occupied_iff hl hm).mp hz.2⟩
  · rintro ⟨hm, hS⟩
    exact ⟨by rw [hf.range_eq hl]; exact hm.1, (hf.occupied_iff hl hm).mpr hS⟩

/-- A file without a zone that is given back. -/
theorem Freed.kept (hf : Freed bs S disk disk') (hl : ZoneLayout bs disk)
    (hm : MarkedZones bs disk inode)
    (hS : ∀ p : Node, p.In bs → nodeZone bs disk inode p ≠ 0 → nodeZone bs disk inode p ∉ S) :
    Kept bs disk disk' inode := by
  have hbytes (p : Node) (hp : p.In bs) (hz : nodeZone bs disk inode p ≠ 0) (x : ℕ)
      (hx : InZone bs (nodeZone bs disk inode p) x) : disk' x = disk x :=
    hf.data hl.map ((ZoneLayout.dataStart_le bs (hm p hp hz).1).trans hx.1)
  have hnodes := nodeZone_congr (ppz_pos hl) fun p hp _ hz => hbytes p hp hz
  refine ⟨hnodes, hbytes, fun p hp hz => ?_⟩
  rw [hnodes p hp] at hz ⊢
  exact (hf.marked_iff hl.map _).mpr ⟨hm p hp hz, hS p hp hz⟩

theorem Freed.inUse (hf : Freed bs S disk disk') (hl : ImageLayout bs disk) :
    InUse bs disk' m ↔ InUse bs disk m :=
  inUse_congr (hf.super hl.map) hl fun x hx => hf.outside x (Or.inl hx)

theorem Freed.getInode (hf : Freed bs S disk disk') (hl : ImageLayout bs disk)
    (hm : InTable disk m) : getInode bs disk' m = Minix3.getInode bs disk m := by
  have hstart := (inodeAddr_bounds hl hm).1
  simp only [Minix3.getInode, inodeAddr, hf.super hl.map]
  apply inode_load_congr
  intro i _
  apply hf.outside
  simp only [inodeAddr] at hstart
  omega

theorem setInodeUnoccupied_used (h : InUse bs disk n) :
    setInodeUnoccupied bs disk n = clearBit disk (imapStart bs) (n - 1).toNat := by
  have hr : isInodeInRange disk n = true :=
    inodeInRange_iff.mpr ⟨h.1.1, Nat.le_succ_of_le h.1.2⟩
  simp only [setInodeUnoccupied, setInodeAs, if_neg h.1.1, h.2, hr, if_true, Bool.not_true,
    Bool.false_eq_true, if_false]

theorem setInodeUnoccupied_outside (hl : ImageLayout bs disk) (h : InUse bs disk n) {x : ℕ}
    (hx : x < imapStart bs ∨ (getSuperblock disk).zmapStart bs ≤ x) :
    setInodeUnoccupied bs disk n x = disk x := by
  have himap := hl.imap
  have hle := h.1.2
  obtain ⟨hpred, hpos⟩ := h.1.pred
  rw [setInodeUnoccupied_used h]
  apply clearBit_apart
  omega

theorem setInodeUnoccupied_map (hl : ImageLayout bs disk) (h : InUse bs disk n) :
    SameMap bs disk (setInodeUnoccupied bs disk n) where
  super := getSuperblock_congr fun _ hx =>
    setInodeUnoccupied_outside hl h (Or.inl (hx.trans_le hl.imapSuper))
  bits _ _ hx := setInodeUnoccupied_outside hl h (Or.inr hx)

theorem setInodeUnoccupied_inUse (hl : ImageLayout bs disk) (h : InUse bs disk n) :
    InUse bs (setInodeUnoccupied bs disk n) m ↔ InUse bs disk m ∧ m ≠ n := by
  have hsuper := (setInodeUnoccupied_map hl h).super
  have hbit (hm : m ≠ 0) : isInodeOccupied bs (setInodeUnoccupied bs disk n) m
      = (!decide (m = n) && isInodeOccupied bs disk m) := by
    have hsub : (m - 1).toNat = (n - 1).toNat ↔ m = n := by
      rw [BitVec.toNat_inj, sub_left_inj]
    rw [setInodeUnoccupied_used h]
    simp only [isInodeOccupied, bitAt_clearBit, hm, ne_eq, not_false_eq_true, decide_true,
      Bool.true_and, hsub]
  simp only [InUse, InTable, hsuper]
  constructor
  · rintro ⟨htable, hocc⟩
    rw [hbit htable.1, Bool.and_eq_true, Bool.not_eq_true', decide_eq_false_iff_not] at hocc
    exact ⟨⟨htable, hocc.2⟩, hocc.1⟩
  · rintro ⟨⟨htable, hocc⟩, hne⟩
    refine ⟨htable, ?_⟩
    rw [hbit htable.1, Bool.and_eq_true, Bool.not_eq_true', decide_eq_false_iff_not]
    exact ⟨hne, hocc⟩

theorem setInodeUnoccupied_getInode (hl : ImageLayout bs disk) (h : InUse bs disk n)
    (hm : InTable disk m) :
    getInode bs (setInodeUnoccupied bs disk n) m = getInode bs disk m := by
  have hstart := (inodeAddr_bounds hl hm).1
  simp only [getInode, inodeAddr, (setInodeUnoccupied_map hl h).super]
  apply inode_load_congr
  intro i _
  apply setInodeUnoccupied_outside hl h
  simp only [inodeAddr, zmapEnd] at hstart
  omega

theorem setInodeUnoccupied_kept (hl : ImageLayout bs disk) (h : InUse bs disk n)
    (hm : MarkedZones bs disk inode) : Kept bs disk (setInodeUnoccupied bs disk n) inode :=
  .of_map hl.toZoneLayout hm (setInodeUnoccupied_map hl h) fun _ hx =>
    setInodeUnoccupied_outside hl h (Or.inr (((Nat.le_add_right _ _).trans hl.bitmap).trans hx))

end GivenBack

/-! ## An entry is cleared -/

section Bytes

variable {bs k l : ℕ} {disk : Mem} {dir : Inode}

/-- The bytes of a file lie apart. -/
theorem Sound.byteAddr_injective (hs : Sound bs disk dir) (hk : k / bs * bs < dir.size.toNat)
    (hl : l / bs * bs < dir.size.toNat)
    (h : byteAddr bs disk dir k = byteAddr bs disk dir l) : k = l := by
  have hpos := hs.layout.pos
  have hkmod := Nat.mod_lt k hpos
  have hlmod := Nat.mod_lt l hpos
  simp only [byteAddr] at h
  have hzone : fileZone bs disk dir (k / bs) = fileZone bs disk dir (l / bs) := by
    have hin : InZone bs (fileZone bs disk dir (k / bs))
        (baddr bs (fileZone bs disk dir (k / bs)) + k % bs) := ⟨Nat.le_add_right _ _, by omega⟩
    apply inZone_unique hin
    rw [h]
    exact ⟨Nat.le_add_right _ _, by omega⟩
  have hnode : Node.data (k / bs) = Node.data (l / bs) :=
    hs.distinct (.data (k / bs)) (.data (l / bs)) (data_in_front (hs.front hk))
      (data_in_front (hs.front hl)) (hs.zone_ne_zero hk) hzone
  have hindex : k / bs = l / bs := Node.data.inj hnode
  rw [hindex] at h
  have hksum := Nat.div_add_mod k bs
  have hlsum := Nat.div_add_mod l bs
  rw [hindex] at hksum
  omega

end Bytes

namespace FileOps

open LiveBlocks

section ClearEntry

variable {bs i j k l : ℕ} {disk disk' : Mem} {dir other : Inode} {n num : Word} {name : CString}

/-- Entry `j` lies in one zone. -/
theorem Directory.entry_place (h : Directory bs disk dir) (hj : j < entries dir) :
    ∃ i o, i * bs < dir.size.toNat ∧ j * dirEntrySize = i * bs + o ∧ o + dirEntrySize ≤ bs := by
  obtain ⟨a, ha⟩ := h.aligned
  have hpos : 0 < a := by
    apply Nat.pos_of_ne_zero
    rintro rfl
    exact h.sound.layout.pos.ne' ha
  have hmod := Nat.mod_lt j hpos
  have hsize := entries_mul h.size
  have hplace : j * dirEntrySize = j / a * bs + j % a * dirEntrySize := by
    rw [ha, Nat.mul_comm dirEntrySize, ← Nat.mul_assoc, ← Nat.add_mul, Nat.div_add_mod']
  refine ⟨j / a, j % a * dirEntrySize, ?_, hplace, ?_⟩
  · have hlt := Nat.mul_lt_mul_of_pos_right hj (by decide : 0 < dirEntrySize)
    omega
  · have hle := Nat.mul_le_mul_right dirEntrySize (Nat.succ_le_of_lt hmod)
    rw [Nat.succ_mul, Nat.mul_comm a, ← ha] at hle
    exact hle

theorem Directory.entry_byte (h : Directory bs disk dir) (hj : j < entries dir) {y : ℕ}
    (hy : y < dirEntrySize) : byteAddr bs disk dir (j * dirEntrySize + y)
      = byteAddr bs disk dir (j * dirEntrySize) + y := by
  obtain ⟨i, o, -, hplace, ho⟩ := h.entry_place hj
  rw [byteAddr_in_zone (i := i) (by omega) (by omega),
    byteAddr_in_zone (i := i) (by omega) (by omega)]
  omega

/-- Its bytes belong to the file. -/
theorem Directory.entry_in (h : Directory bs disk dir) (hj : j < entries dir) {y : ℕ}
    (hy : y < dirEntrySize) : (j * dirEntrySize + y) / bs * bs < dir.size.toNat := by
  have hsize := entries_mul h.size
  have hle := Nat.mul_le_mul_right dirEntrySize (Nat.succ_le_of_lt hj)
  rw [Nat.succ_mul] at hle
  exact (Nat.div_mul_le_self _ bs).trans_lt (by omega)

def clearEntry (bs : ℕ) (disk : Mem) (dir : Inode) (j : ℕ) : Mem :=
  store32 disk (byteAddr bs disk dir (j * dirEntrySize)) 0

/-- Entry `j` is not in use any more. -/
structure EntryCleared (bs : ℕ) (disk : Mem) (dir : Inode) (j : ℕ) (disk' : Mem) : Prop where
  low (x : ℕ) : x < dataStart bs disk → disk' x = disk x
  nodes (p : Node) : p.In bs → nodeZone bs disk' dir p = nodeZone bs disk dir p
  gone (y : ℕ) : y < 4 → fileMem bs disk' dir (j * dirEntrySize + y) = 0
  old (k : ℕ) : k / bs * bs < dir.size.toNat → (∀ y < 4, k ≠ j * dirEntrySize + y) →
    fileMem bs disk' dir k = fileMem bs disk dir k
  others (other : Inode) : MarkedZones bs disk other → Apart bs disk other dir →
    Kept bs disk disk' other

theorem Directory.clear (h : Directory bs disk dir) (hj : j < entries dir) :
    EntryCleared bs disk dir j (clearEntry bs disk dir j) := by
  obtain ⟨i, o, hi, hplace, ho⟩ := h.entry_place hj
  have hl := h.sound.layout
  have hin := data_in_front (h.sound.front hi)
  have haddr : byteAddr bs disk dir (j * dirEntrySize) = baddr bs (fileZone bs disk dir i) + o := by
    rw [byteAddr_in_zone (i := i) (by omega) (by unfold dirEntrySize at ho; omega)]
    omega
  have houtside (x : ℕ) (hx : ¬ InZone bs (fileZone bs disk dir i) x) :
      clearEntry bs disk dir j x = disk x := by
    apply blit_outside
    rw [haddr]
    unfold InZone at hx
    unfold dirEntrySize at ho
    omega
  have hstart := ZoneLayout.dataStart_le bs (h.sound.zone_in_range hi)
  have hlow (x : ℕ) (hx : x < dataStart bs disk) : clearEntry bs disk dir j x = disk x := by
    apply houtside
    unfold InZone
    omega
  -- no pointer lies in the zone
  have hnodes : ∀ p : Node, p.In bs →
      nodeZone bs (clearEntry bs disk dir j) dir p = nodeZone bs disk dir p := by
    refine nodeZone_congr (ppz_pos hl) fun p hp hleaf hpz x hx => houtside x fun hx' => hleaf ?_
    have hsame := h.sound.distinct p (.data i) hp hin hpz (inZone_unique hx hx')
    rw [hsame]
    exact leaf_data bs i
  have hbyte (k : ℕ) (hk : k / bs * bs < dir.size.toNat) :
      fileMem bs (clearEntry bs disk dir j) dir k
        = clearEntry bs disk dir j (byteAddr bs disk dir k) := by
    have hzone : fileZone bs (clearEntry bs disk dir j) dir (k / bs)
        = fileZone bs disk dir (k / bs) :=
      hnodes (.data (k / bs)) (data_in_front (h.sound.front hk))
    rw [fileMem, byteAddr, hzone, byteAddr]
  have hmap : SameMap bs disk (clearEntry bs disk dir j) :=
    .of_low hl fun x hx => hlow x (hx.trans_le hl.bitmap)
  refine ⟨hlow, hnodes, fun y hy => ?_, fun k hk hne => ?_, fun other hm ha => ?_⟩
  · have hy64 : y < dirEntrySize := hy.trans (by decide)
    rw [hbyte _ (h.entry_in hj hy64), h.entry_byte hj hy64, clearEntry, store32,
      blit_inside (Nat.le_add_right _ _) (by omega), Nat.add_sub_cancel_left]
    simp [leByte]
  · rw [hbyte k hk]
    apply blit_outside
    by_contra hin
    obtain ⟨y, hy⟩ : ∃ y, byteAddr bs disk dir k
        = byteAddr bs disk dir (j * dirEntrySize) + y := Nat.exists_eq_add_of_le (by omega)
    have hy4 : y < 4 := by omega
    have hy64 : y < dirEntrySize := hy4.trans (by decide)
    rw [← h.entry_byte hj hy64] at hy
    exact hne y hy4 (h.sound.byteAddr_injective hk (h.entry_in hj hy64) hy)
  · apply Kept.of_bytes hl hm fun z hz => hmap.marked_iff.mpr hz
    intro p hp hz x hx
    exact houtside x fun hx' => ha p (.data i) hp hin hz (inZone_unique hx hx')

namespace EntryCleared

variable (hc : EntryCleared bs disk dir j disk')

include hc

theorem inode : entryInode (fileMem bs disk' dir) j = 0 :=
  load32_leByte fun y hy => (hc.gone y hy).trans (by simp [leByte])

variable (h : Directory bs disk dir)

include h

theorem map : SameMap bs disk disk' :=
  .of_low h.sound.layout fun x hx => hc.low x (hx.trans_le h.sound.layout.bitmap)

theorem inUse {m : Word} (hl : ImageLayout bs disk) : InUse bs disk' m ↔ InUse bs disk m :=
  inUse_congr (hc.map h).super hl fun x hx =>
    hc.low x (hx.trans_le ((Nat.le_add_right _ _).trans hl.bitmap))

theorem getInode {m : Word} (hl : ImageLayout bs disk) (hm : InTable disk m) :
    Minix3.getInode bs disk' m = Minix3.getInode bs disk m := by
  have hend := (inodeAddr_bounds hl hm).2
  simp only [Minix3.getInode, inodeAddr, (hc.map h).super]
  apply inode_load_congr
  intro i hi
  apply hc.low
  simp only [inodeAddr] at hend
  omega

theorem same_entry (hi : i < entries dir) (hne : i ≠ j) :
    SameEntry (fileMem bs disk dir) (fileMem bs disk' dir) i := by
  intro x hx
  apply hc.old _ (h.entry_in hi hx)
  intro y hy heq
  unfold dirEntrySize at heq hx
  omega

theorem directory (hl : ZoneLayout bs disk') (hj : j < entries dir) : Directory bs disk' dir := by
  have hsound : Sound bs disk' dir := by
    refine ⟨hl, fun a b ha hb => ?_, fun p hp hz => ?_,
      h.sound.whole.congr rfl fun i hi => hc.nodes (.data i) hi⟩
    · rw [hc.nodes a ha, hc.nodes b hb]
      exact h.sound.distinct a b ha hb
    · rw [hc.nodes p hp] at hz ⊢
      exact (hc.map h).marked_iff.mpr (h.sound.marked p hp hz)
  have hsize := entries_mul h.size
  have hlast := Nat.mul_le_mul_right dirEntrySize (Nat.succ_le_of_lt hj)
  rw [Nat.succ_mul] at hlast
  apply h.thinned hsound rfl
  · intro k hk hk'
    refine (hc.old k hk' fun y hy heq => ?_).trans (h.blank k hk hk')
    unfold dirEntrySize at *
    omega
  · intro i hi hused
    exact hc.same_entry h hi fun heq => hused (heq ▸ hc.inode)

/-- Only entry `j` was for `n`. -/
theorem binds_iff (hj : entryInode (fileMem bs disk dir) j = n)
    (hsole : ∀ i < entries dir, entryInode (fileMem bs disk dir) i = n → i = j) :
    Binds bs disk' dir name num ↔ Binds bs disk dir name num ∧ num ≠ n := by
  apply binds_cleared rfl
  · intro i hi hin
    rw [hsole i hi hin]
    exact hc.inode
  · intro i hi hne
    apply hc.same_entry h hi
    rintro rfl
    exact hne hj

end EntryCleared

/-- The code writes all bytes of the entry. -/
theorem clearEntry_eq {dirs : Mem} {o : ℕ} (h : Directory bs disk dir)
    (hb : InBuffer bs disk dir i dirs) (ho : o < dirsPerBlock bs) :
    blit disk (baddr bs (fileZone bs disk dir i) + o * dirEntrySize) dirEntrySize
      (window (store32 dirs (o * dirEntrySize) 0) (o * dirEntrySize))
      = clearEntry bs disk dir (i * dirsPerBlock bs + o) := by
  have hper : dirsPerBlock bs * dirEntrySize = bs := Nat.div_mul_cancel h.aligned
  have hlast := Nat.mul_le_mul_right dirEntrySize (Nat.succ_le_of_lt ho)
  rw [hper, Nat.succ_mul] at hlast
  have haddr : byteAddr bs disk dir ((i * dirsPerBlock bs + o) * dirEntrySize)
      = baddr bs (fileZone bs disk dir i) + o * dirEntrySize := by
    have hplace : (i * dirsPerBlock bs + o) * dirEntrySize = i * bs + o * dirEntrySize := by
      rw [Nat.add_mul, Nat.mul_assoc, hper]
    rw [hplace, byteAddr_in_zone (Nat.le_add_right _ _) (by unfold dirEntrySize at *; omega),
      Nat.add_sub_cancel_left]
  funext x
  rw [clearEntry, haddr]
  by_cases hx : baddr bs (fileZone bs disk dir i) + o * dirEntrySize ≤ x ∧
      x < baddr bs (fileZone bs disk dir i) + o * dirEntrySize + dirEntrySize
  · obtain ⟨y, rfl⟩ := Nat.exists_eq_add_of_le hx.1
    rw [blit_inside hx.1 hx.2, Nat.add_sub_cancel_left, window]
    by_cases hy : y < 4
    · rw [store32, store32, blit_inside (Nat.le_add_right _ _) (by omega),
        blit_inside (Nat.le_add_right _ _) (by omega), Nat.add_sub_cancel_left,
        Nat.add_sub_cancel_left]
    · rw [store32, store32, blit_outside (by omega), blit_outside (by omega), hb _ (by omega),
        Nat.add_assoc]
  · unfold dirEntrySize at *
    rw [blit_outside (by omega), store32, blit_outside (by omega)]

end ClearEntry

/-! ## The loop that clears it -/

section Loop

variable {dev : Mount} {fs : Fs} {dir : Inode} {n : Word} {i j l : ℕ}

theorem findInode_none {bs : ℕ} {dirs : Mem} {o : ℕ} (h : findInode bs dirs n = none)
    (ho : o < dirsPerBlock bs) : entryInode dirs o ≠ n := by
  have hno := List.find?_eq_none.mp h o (List.mem_range.mpr ho)
  simpa using hno

theorem findInode_some {bs : ℕ} {dirs : Mem} {o : ℕ} (h : findInode bs dirs n = some o) :
    o < dirsPerBlock bs ∧ entryInode dirs o = n := by
  have hfound := List.find?_some h
  exact ⟨List.mem_range.mp (List.mem_of_find?_eq_some h), by simpa using hfound⟩

/-- The entry in the buffer is one of the directory. -/
theorem Directory.found_in {bs : ℕ} {disk dirs : Mem} {o : ℕ} (h : Directory bs disk dir)
    (hb : InBuffer bs disk dir i dirs) (hi : i * bs < dir.size.toNat) (ho : o < dirsPerBlock bs)
    (hn : n ≠ 0) (heq : entryInode dirs o = n) : i * dirsPerBlock bs + o < entries dir ∧
      entryInode (fileMem bs disk dir) (i * dirsPerBlock bs + o) = n := by
  have hsame : entryInode (fileMem bs disk dir) (i * dirsPerBlock bs + o) = n := by
    rw [← heq]
    exact (entryInode_congr fun x hx => hb.entry h.aligned ho hx).symm
  refine ⟨?_, hsame⟩
  by_contra hout
  rw [h.behind hi ho (not_lt.mp hout)] at hsame
  exact hn hsame.symm

/-- One round of the loop. -/
theorem removeEntries_step {Q : Unit → Machine → Prop} (h : Directory dev.bs fs.disk dir)
    (hn : n ≠ 0) (hend : dir.size.toNat ≤ i * dev.bs → ∀ m, At fs m → Q () m)
    (hnone : (∀ o < dirsPerBlock dev.bs,
        entryInode (fileMem dev.bs fs.disk dir) (i * dirsPerBlock dev.bs + o) = n →
          entries dir ≤ i * dirsPerBlock dev.bs + o) →
      Ensures ∅ (At fs) (removeEntries dev dir n l (i + 1)) Q)
    (hsome : ∀ o < dirsPerBlock dev.bs, i * dirsPerBlock dev.bs + o < entries dir →
      entryInode (fileMem dev.bs fs.disk dir) (i * dirsPerBlock dev.bs + o) = n →
      Ensures ∅ (At (fs.withDisk (clearEntry dev.bs fs.disk dir (i * dirsPerBlock dev.bs + o))))
        (removeEntries dev dir n l (i + 1)) Q) :
    Ensures ∅ (At fs) (removeEntries dev dir n (l + 1) i) Q := by
  simp only [removeEntries]
  by_cases hi : i * dev.bs < dir.size.toNat
  · apply (gzbars_sound h.sound (Or.inl hi)).step
    have haddress := h.sound.address_ne_zero hi
    dsimp only
    rw [if_neg (by omega), if_neg haddress]
    apply (readDirs_sound _).bind
    intro dirs
    apply Ensures.given
    intro (hb : InBuffer dev.bs fs.disk dir i dirs)
    cases hfind : findInode dev.bs dirs n with
    | none =>
      apply hnone
      intro o ho heq
      by_contra hin
      apply findInode_none hfind ho
      rw [← heq]
      exact entryInode_congr fun x hx => hb.entry h.aligned ho hx
    | some o =>
      obtain ⟨ho, heq⟩ := findInode_some hfind
      obtain ⟨hin, hentry⟩ := h.found_in hb hi ho hn heq
      apply (writing_ensures (blockWriteArbitrary_computes _ _ _)).bind
      intro _
      rw [clearEntry_eq h hb ho]
      exact hsome o ho hin hentry
  · have hppz := ppz_pos h.sound.layout
    apply (gzbars_reports hppz dir i).bind
    rintro ⟨address_on_block, remaining_size⟩
    apply Ensures.given
    rintro rfl
    dsimp only
    rw [if_pos (reportedSize_end h.sound (not_lt.mp hi))]
    exact ensures_pure _ (hend (not_lt.mp hi))

/-- From zone `i` on no entry is for the inode. -/
theorem removeEntries_none (h : Directory dev.bs fs.disk dir) (hn : n ≠ 0)
    (hno : ∀ j < entries dir, i * dirsPerBlock dev.bs ≤ j →
      entryInode (fileMem dev.bs fs.disk dir) j ≠ n) :
    Ensures ∅ (At fs) (removeEntries dev dir n l i) fun _ => At fs := by
  induction l generalizing i with
  | zero => exact ensures_pure _ fun m hm => hm
  | succ l ih =>
    apply removeEntries_step h hn
    · exact fun _ m hm => hm
    · intro _
      refine ih fun j hj hle => hno j hj (le_trans ?_ hle)
      exact Nat.mul_le_mul_right _ (Nat.le_succ i)
    · exact fun o _ hin heq => absurd heq (hno _ hin (Nat.le_add_right _ _))

/-- One entry is for the inode. -/
theorem removeEntries_one (h : Directory dev.bs fs.disk dir) (hn : n ≠ 0) (hj : j < entries dir)
    (hjn : entryInode (fileMem dev.bs fs.disk dir) j = n)
    (hsole : ∀ k < entries dir, entryInode (fileMem dev.bs fs.disk dir) k = n → k = j)
    (hle : i * dirsPerBlock dev.bs ≤ j) (hl : dir.size.toNat ≤ (i + l) * dev.bs) :
    Ensures ∅ (At fs) (removeEntries dev dir n l i) fun _ =>
      At (fs.withDisk (clearEntry dev.bs fs.disk dir j)) := by
  have hper : dirsPerBlock dev.bs * dirEntrySize = dev.bs := Nat.div_mul_cancel h.aligned
  have hsize := entries_mul h.size
  have hbehind {i : ℕ} (hle : i * dirsPerBlock dev.bs ≤ j) : ¬ dir.size.toNat ≤ i * dev.bs := by
    intro hend
    have hmul := Nat.mul_le_mul_right dirEntrySize hle
    rw [Nat.mul_assoc, hper] at hmul
    have hlt := Nat.mul_lt_mul_of_pos_right hj (by decide : 0 < dirEntrySize)
    omega
  induction l generalizing i with
  | zero => exact absurd hl (hbehind hle)
  | succ l ih =>
    apply removeEntries_step h hn
    · exact fun hend => absurd hend (hbehind hle)
    · intro hno
      apply ih
      · obtain ⟨o, ho, rfl⟩ | hnext := entry_zone hle
        · exact absurd (hno o ho hjn) (by omega)
        · exact hnext
      · rwa [Nat.add_right_comm]
    · intro o _ hin heq
      obtain rfl := hsole _ hin heq
      have hcleared := h.clear hin
      have hd' := hcleared.directory h
        (h.sound.layout.congr (hcleared.map h).super) hin
      have hgone (k : ℕ) (hk : k < entries dir) : entryInode (fileMem dev.bs
          (clearEntry dev.bs fs.disk dir (i * dirsPerBlock dev.bs + o)) dir) k ≠ n := by
        by_cases hkj : k = i * dirsPerBlock dev.bs + o
        · rw [hkj, hcleared.inode]
          exact hn.symm
        · rw [(hcleared.same_entry h hk hkj).inode]
          exact fun hkn => hkj (hsole k hk hkn)
      exact removeEntries_none hd' hn fun k hk _ => hgone k hk

end Loop

end FileOps

end Minix3
