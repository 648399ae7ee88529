import DucreuOS.FileOperations

/-! # Blocks that the file system keeps

The block device, the bitmaps, the allocators and the walks free what they allocate, and what they
compute is what the model without a heap computes. `minix3_inode_transfer_common` does not free
the superblock, and nothing after it can. -/
namespace Minix3.FileOps

open ByteMemory LiveBlocks

section Leaves

variable {dev : Mount}

@[simp] theorem reading_bind {α β : Type} (f : Fs → α) (g : α → Effect β) (m : Machine) :
    (reading f >>= g) m = g (f m.fs) m := rfl

@[simp] theorem writing_bind {β : Type} (f : Fs → Fs) (g : Unit → Effect β) (m : Machine) :
    (writing f >>= g) m = g () { m with fs := f m.fs } := rfl

@[simp] theorem guess_bind {β : Type} (g : Mem → Effect β) (m : Machine) :
    (guess >>= g) m = g (m.unknown 0) { m with unknown := fun n => m.unknown (n + 1) } := rfl

theorem Mount.sector_pos (dev : Mount) : 0 < dev.sector :=
  Nat.lt_of_lt_of_le (by decide) dev.sector_fits

/-- A request that reads frees its header and changes nothing. -/
theorem blockReadWrite_read (dev : Mount) (a b : ℕ) :
    ∃ code, Computes ∅ (blockReadWrite dev a b id) (pure code) := by
  unfold blockReadWrite
  split
  · exact ⟨1, computes_pure 1⟩
  split
  · exact ⟨1, computes_pure 1⟩
  split
  · exact ⟨2, computes_pure 2⟩
  split
  · exact ⟨3, computes_pure 3⟩
  · refine ⟨0, ?_⟩
    apply Computes.congr
    · exact .allocate fun brq hbrq =>
        (computes_onData _).bind fun _ => .release hbrq (computes_pure 0)
    · intro m
      rfl

theorem blockReadArbitrary_computes (start size : ℕ) :
    Computes ∅ (blockReadArbitrary dev start size) (reading fun fs => window fs.disk start) := by
  obtain ⟨code, hread⟩ := blockReadWrite_read dev (blockStartByte dev start)
    (blockEndByte dev start size)
  apply Computes.congr
  · exact .allocate fun tbuffer hfresh => hread.bind fun _ =>
      (computes_onData _).bind fun _ => .release hfresh (computes_pure _)
  · intro m
    rfl

/-- Only a request of no bytes has the same start and end. -/
theorem size_zero_of_empty {start size : ℕ}
    (h : blockStartByte dev start = blockEndByte dev start size) : size = 0 := by
  have hpos := dev.sector_pos
  have hq := Nat.eq_of_mul_eq_mul_right hpos h
  by_contra hsize
  have hnext : start / dev.sector + 1 ≤ (start + size + dev.sector - 1) / dev.sector := by
    rw [← Nat.add_div_right _ hpos]
    exact Nat.div_le_div_right (by omega)
  omega

theorem blockStart_le_end (start size : ℕ) :
    blockStartByte dev start ≤ blockEndByte dev start size := by
  have hpos := dev.sector_pos
  exact Nat.mul_le_mul_right _ (Nat.div_le_div_right (by omega))

/-- The two outcomes of a request whose range the caller has rounded to sectors. -/
theorem blockReadWrite_rounded (start size : ℕ) (transfer : Fs → Fs) :
    Computes ∅ (blockReadWrite dev (blockStartByte dev start) (blockEndByte dev start size) transfer)
      (if blockStartByte dev start = blockEndByte dev start size then pure 3
        else writing transfer >>= fun _ => pure 0) := by
  unfold blockReadWrite
  rw [if_neg (by simp [blockStartByte]), if_neg (by simp [blockEndByte]),
    if_neg (Nat.not_lt.mpr (blockStart_le_end start size))]
  refine .ite (fun _ => computes_pure 3) fun _ => .allocate fun brq hbrq => ?_
  exact (computes_onData _).bind fun _ => .release hbrq (computes_pure 0)

theorem blockWriteArbitrary_computes (buffer : Mem) (start size : ℕ) :
    Computes ∅ (blockWriteArbitrary dev buffer start size)
      (writing fun fs => { fs with disk := blit fs.disk start size buffer }) := by
  apply Computes.congr
  · apply Computes.allocate
    intro tbuffer _
    apply (blockReadWrite_rounded start size id).bind
    intro failed
    apply Computes.ite
    · exact fun _ => computes_release tbuffer
    · exact fun _ => (blockReadWrite_rounded start size _).bind fun _ => computes_release tbuffer
  · intro m
    by_cases h : blockStartByte dev start = blockEndByte dev start size
    · simp only [if_pos h]
      obtain rfl := size_zero_of_empty h
      simp only [writing, blit_zero]
      rfl
    · simp only [if_neg h]
      rfl

/-- The block of the superblock is one more for the caller to free. -/
theorem computes_superblock {β : Type} {own : Finset ℕ} {k : ℕ × Superblock → Op β}
    {g : Superblock → Effect β}
    (hk : ∀ b, b ∉ own → ∀ sb, Computes (insert b own) (k (b, sb)) (g sb)) :
    Computes own (getSuperblock dev >>= k)
      (reading (fun fs => Minix3.getSuperblock fs.disk) >>= g) := by
  obtain ⟨code, hread⟩ := blockReadWrite_read dev MX3_BOOT_BLOCK_SIZE
    (MX3_BOOT_BLOCK_SIZE + dev.sector)
  simp only [getSuperblock, bind_assoc, pure_bind]
  apply Computes.congr
  · apply Computes.allocate
    intro b hb
    apply hread.bind
    intro _
    apply (computes_onData _).bind
    exact hk b hb
  · intro m
    rfl

/-! ## Bitmaps -/

theorem isZoneOccupied_computes (zone_num : Word) :
    Computes ∅ (isZoneOccupied dev zone_num)
      (reading fun fs => Minix3.isZoneOccupied dev.bs fs.disk zone_num) := by
  apply Computes.congr
  · apply computes_superblock
    intro sb hsb super
    apply (blockReadArbitrary_computes _ _).bind
    intro _
    apply (computes_onData _).bind
    exact fun occupied => .release hsb (computes_pure occupied)
  · intro m
    rfl

theorem isZoneInRange_computes (zone_num : Word) :
    Computes ∅ (isZoneInRange dev zone_num)
      (reading fun fs => Minix3.isZoneInRange fs.disk zone_num) := by
  apply Computes.congr
  · apply computes_superblock
    intro sb hsb super
    apply (computes_onData _).bind
    exact fun in_range => .release hsb (computes_pure in_range)
  · intro m
    rfl

theorem isInodeOccupied_computes (inode_num : Word) :
    Computes ∅ (isInodeOccupied dev inode_num)
      (reading fun fs => Minix3.isInodeOccupied dev.bs fs.disk inode_num) := by
  apply Computes.congr
  · apply Computes.ite
    · exact fun _ => computes_pure false
    · intro _
      apply computes_superblock
      intro sb hsb super
      apply (blockReadArbitrary_computes _ _).bind
      intro _
      apply (computes_onData _).bind
      exact fun occupied => .release hsb (computes_pure occupied)
  · intro m
    split
    · simp only [*, reading, Minix3.isInodeOccupied, ne_eq, not_true, decide_false, Bool.false_and]
      rfl
    · rfl

theorem isInodeInRange_computes (inode_num : Word) :
    Computes ∅ (isInodeInRange dev inode_num)
      (reading fun fs => Minix3.isInodeInRange fs.disk inode_num) := by
  apply Computes.congr
  · apply Computes.ite
    · exact fun _ => computes_pure false
    · intro _
      apply computes_superblock
      intro sb hsb super
      apply (computes_onData _).bind
      exact fun in_range => .release hsb (computes_pure in_range)
  · intro m
    split
    · simp only [*, reading, Minix3.isInodeInRange, ne_eq, not_true, decide_false, Bool.false_and]
      rfl
    · rfl

theorem setBit_eq_blit (m : Mem) (base j : ℕ) :
    setBit m base j = blit m (base + j / 8) 1 fun o => withBit (m (base + j / 8 + o)) (j % 8) true := by
  funext x
  by_cases hx : x = base + j / 8
  · subst hx
    rw [blit_inside le_rfl (Nat.lt_succ_self _)]
    simp [setBit, withBit]
  · rw [setBit_apart hx, blit_outside (by omega)]

theorem clearBit_eq_blit (m : Mem) (base j : ℕ) :
    clearBit m base j =
      blit m (base + j / 8) 1 fun o => withBit (m (base + j / 8 + o)) (j % 8) false := by
  funext x
  by_cases hx : x = base + j / 8
  · subst hx
    rw [blit_inside le_rfl (Nat.lt_succ_self _)]
    simp [clearBit, withBit]
  · rw [clearBit_apart hx, blit_outside (by omega)]

/-- What the byte that is written back makes of the bitmap. -/
theorem blit_withBit (m : Mem) (base j : ℕ) (changes as : Bool) :
    blit m (base + j / 8) 1 (fun o => if changes then withBit (window m (base + j / 8) o) (j % 8) as
        else window m (base + j / 8) o) =
      if changes then (if as then setBit m base j else clearBit m base j) else m := by
  cases changes with
  | false =>
    simp only [Bool.false_eq_true, if_false]
    exact blit_window m _ 1
  | true =>
    cases as with
    | false => exact (clearBit_eq_blit m base j).symm
    | true => exact (setBit_eq_blit m base j).symm

theorem whetherChanges_computes {in_range : Op Bool} {f : Fs → Bool} (occupied as : Bool)
    (h : Computes ∅ in_range (reading f)) :
    Computes ∅ (whetherChanges occupied as in_range) (reading fun fs => occupied ≠ as && f fs) := by
  apply Computes.congr (.ite (fun _ => computes_pure false) fun _ => h)
  intro m
  by_cases heq : occupied = as
  · simp only [reading, heq, if_true, ne_eq, not_true, decide_false, Bool.false_and]
    rfl
  · simp only [reading, heq, if_false, ne_eq, not_false_iff, decide_true, Bool.true_and]

theorem setZoneAs_computes (zone_num : Word) (as : Bool) :
    Computes ∅ (setZoneAs dev zone_num as)
      (writing fun fs => { fs with disk := Minix3.setZoneAs dev.bs fs.disk zone_num as }) := by
  apply Computes.congr
  · apply computes_superblock
    intro sb hsb super
    apply Computes.ite
    · exact fun _ => computes_release sb
    · intro _
      apply (blockReadArbitrary_computes _ _).bind
      intro zone_byte
      apply (isZoneOccupied_computes _).bind
      intro occupied
      apply (whetherChanges_computes occupied as (isZoneInRange_computes _)).bind
      exact fun changes => (blockWriteArbitrary_computes _ _ _).bind fun _ => computes_release sb
  · intro m
    simp only [reading_bind, bind_pure_unit]
    by_cases hsmall : zone_num < (Minix3.getSuperblock m.fs.disk).firstZone
    · simp only [if_pos hsmall, writing, Minix3.setZoneAs]
      rfl
    · simp only [if_neg hsmall, reading_bind, writing, blit_withBit, Minix3.setZoneAs]
      congr 4
      cases as <;> cases Minix3.isZoneOccupied dev.bs m.fs.disk zone_num <;>
        cases Minix3.isZoneInRange m.fs.disk zone_num <;> rfl

theorem setInodeAs_computes (inode_num : Word) (as : Bool) :
    Computes ∅ (setInodeAs dev inode_num as)
      (writing fun fs => { fs with disk := Minix3.setInodeAs dev.bs fs.disk inode_num as }) := by
  apply Computes.congr
  · apply Computes.ite
    · exact fun _ => computes_pure ()
    · intro _
      apply computes_superblock
      intro sb hsb super
      apply (blockReadArbitrary_computes _ _).bind
      intro inode_byte
      apply (isInodeOccupied_computes _).bind
      intro occupied
      apply (whetherChanges_computes occupied as (isInodeInRange_computes _)).bind
      exact fun changes => (blockWriteArbitrary_computes _ _ _).bind fun _ => computes_release sb
  · intro m
    by_cases hzero : inode_num = 0
    · simp only [if_pos hzero, writing, Minix3.setInodeAs]
      rfl
    · simp only [if_neg hzero, reading_bind, bind_pure_unit, writing, blit_withBit,
        Minix3.setInodeAs]
      congr 4
      cases as <;> cases Minix3.isInodeOccupied dev.bs m.fs.disk inode_num <;>
        cases Minix3.isInodeInRange m.fs.disk inode_num <;> rfl

/-! ## Allocators -/

theorem setZoneToZero_computes (which_zone : Word) :
    Computes ∅ (setZoneToZero dev which_zone)
      (writing fun fs => { fs with disk := Minix3.setZoneToZero dev.bs fs.disk which_zone }) := by
  apply Computes.congr
  · apply Computes.allocate
    intro buffer _
    exact (blockWriteArbitrary_computes _ _ _).bind fun _ => computes_release buffer
  · intro m
    rfl

theorem availableZoneFrom_computes (n : ℕ) (cursor : Word) :
    Computes ∅ (availableZoneFrom dev n cursor) fun m =>
      (Minix3.availableZoneFrom dev.bs m.fs.disk n cursor).map fun zone => (zone, m) := by
  induction n generalizing cursor with
  | zero => exact fun _ _ => rfl
  | succ n ih =>
    apply Computes.congr
    · apply (isZoneInRange_computes _).bind
      intro in_range
      apply (isZoneOccupied_computes _).bind
      intro occupied
      exact .ite (fun _ => computes_pure _) fun _ => ih _
    · intro m
      simp only [reading_bind, Minix3.availableZoneFrom]
      generalize (if (!Minix3.isZoneInRange m.fs.disk cursor) = true then 0 else cursor) = c
      cases Minix3.isZoneOccupied dev.bs m.fs.disk c <;> rfl

theorem zoneCursor_computes (cursor : Word) :
    Computes ∅ (zoneCursor dev cursor) (reading fun fs =>
      if cursor = 0 then (Minix3.getSuperblock fs.disk).firstZone else cursor) := by
  apply Computes.congr
  · apply Computes.ite
    · intro _
      apply computes_superblock
      exact fun sb hsb super => .release hsb (computes_pure super.firstZone)
    · exact fun _ => computes_pure cursor
  · intro m
    by_cases hzero : cursor = 0
    · simp only [if_pos hzero, reading]
      rfl
    · simp only [if_neg hzero, reading]
      rfl

theorem getAvailableZone_computes :
    Computes ∅ (getAvailableZone dev) fun m =>
      (Minix3.getAvailableZone dev.bs m.fs).map fun p => (p.2, { m with fs := p.1 }) := by
  apply Computes.congr
  · apply (computes_onData _).bind
    intro test_available_zone_num
    apply (zoneCursor_computes _).bind
    intro cursor
    apply (availableZoneFrom_computes _ _).bind
    intro zone
    apply (computes_onData _).bind
    intro _
    exact (setZoneToZero_computes _).bind fun _ => computes_pure zone
  · intro m
    simp only [reading_bind, Minix3.getAvailableZone, Option.map_map]
    generalize (if m.fs.zoneCursor = 0 then _ else _) = cursor
    change ((Minix3.availableZoneFrom dev.bs m.fs.disk rounds cursor).map _).bind _ = _
    cases Minix3.availableZoneFrom dev.bs m.fs.disk rounds cursor <;> rfl

theorem availableInodeFrom_computes (n : ℕ) (cursor : Word) :
    Computes ∅ (availableInodeFrom dev n cursor) fun m =>
      (Minix3.availableInodeFrom dev.bs m.fs.disk n cursor).map fun inode_num => (inode_num, m) := by
  induction n generalizing cursor with
  | zero => exact fun _ _ => rfl
  | succ n ih =>
    apply Computes.congr
    · apply (isInodeInRange_computes _).bind
      intro in_range
      apply (isInodeOccupied_computes _).bind
      intro occupied
      exact .ite (fun _ => computes_pure _) fun _ => ih _
    · intro m
      simp only [reading_bind, Minix3.availableInodeFrom]
      generalize (if (!Minix3.isInodeInRange m.fs.disk cursor) = true then 1 else cursor) = c
      cases Minix3.isInodeOccupied dev.bs m.fs.disk c <;> rfl

theorem getAvailableInode_computes :
    Computes ∅ (getAvailableInode dev) fun m =>
      (Minix3.getAvailableInode dev.bs m.fs).map fun p => (p.2, { m with fs := p.1 }) := by
  apply Computes.congr
  · apply (computes_onData _).bind
    intro test_available_inode_num
    apply (availableInodeFrom_computes _ _).bind
    intro inode_num
    exact (computes_onData _).bind fun _ => computes_pure inode_num
  · intro m
    simp only [reading_bind, Minix3.getAvailableInode, Option.map_map]
    change ((Minix3.availableInodeFrom dev.bs m.fs.disk rounds m.fs.inodeCursor).map _).bind _ = _
    cases Minix3.availableInodeFrom dev.bs m.fs.disk rounds m.fs.inodeCursor <;> rfl

/-! ## Walks over a file -/

/-- The walk without its buffers. -/
def walking (bs : ℕ) (f_inode : Inode) (zone_index : ℕ) (set : Option Word) :
    Effect (Walk × Word) := fun m =>
  leaving (load32 (m.unknown 0) 0)
    (walkAll bs zone_index set ⟨m.fs, f_inode, 0, f_inode.size.toNat⟩)
    { m with unknown := fun n => m.unknown (n + 1) }

/-- The buffers are freed in the order in which they were allocated. -/
theorem insert_reversed (a b c d : ℕ) :
    insert d (insert c (insert b (insert a (∅ : Finset ℕ)))) =
      insert a (insert b (insert c (insert d ∅))) := by
  ext x
  simp only [Finset.mem_insert]
  tauto

theorem zoneWalker_computes (f_inode : Inode) (zone_index : ℕ) (set : Option Word) :
    Computes ∅ (zoneWalker dev f_inode zone_index set)
      (walking dev.bs f_inode zone_index set) := by
  apply Computes.congr
  · apply (computes_onData _).bind
    intro stack
    apply (computes_onData _).bind
    intro fs
    apply Computes.allocate (f := leaving (load32 stack 0)
      (walkAll dev.bs zone_index set ⟨fs, f_inode, 0, f_inode.size.toNat⟩))
    intro zeroes _
    unfold walkAll
    cases walkDirect dev.bs zone_index set 7 ⟨fs, f_inode, 0, f_inode.size.toNat⟩ with
    | error stop => exact .release (Finset.notMem_empty _) (computes_onData _)
    | ok w =>
      apply Computes.allocate
      intro buffer_I hI
      change Computes _ _ (leaving _ (walkIndirect dev.bs zone_index set w >>= _))
      cases walkIndirect dev.bs zone_index set w with
      | error stop =>
        rw [Finset.insert_comm]
        exact .release (by grind) (.release (Finset.notMem_empty _) (computes_onData _))
      | ok w =>
        apply Computes.allocate
        intro buffer_II hII
        change Computes _ _ (leaving _ (walkDoublyIndirect dev.bs zone_index set w >>= _))
        cases walkDoublyIndirect dev.bs zone_index set w with
        | error stop =>
          rw [Finset.insert_comm buffer_I, Finset.insert_comm buffer_II,
            Finset.insert_comm buffer_II]
          exact .release (by grind) (.release (by grind)
            (.release (Finset.notMem_empty _) (computes_onData _)))
        | ok w =>
          apply Computes.allocate
          intro buffer_III hIII
          rw [insert_reversed]
          exact .release (by grind) (.release (by grind) (.release (by grind)
            (.release (Finset.notMem_empty _) (computes_onData _))))
  · intro m
    rfl

/-- The address and the remaining size that the walk gives. -/
def locating (bs : ℕ) (f_inode : Inode) (zone_index : ℕ) : Effect (ℕ × ℕ) := do
  let (w, zone) ← walking bs f_inode zone_index none
  pure (baddr bs zone, w.remaining)

theorem gzbars_computes (f_inode : Inode) (zone_index : ℕ) :
    Computes ∅ (gzbars dev f_inode zone_index) (locating dev.bs f_inode zone_index) :=
  (zoneWalker_computes _ _ _).bind fun p => computes_pure (baddr dev.bs p.2, p.1.remaining)

theorem leaveClear_computes (c : Clear) :
    Computes ∅ (leaveClear c)
      (writing (fun fs => { fs with disk := c.disk }) >>= fun _ => pure c.inode) :=
  (computes_onData _).bind fun _ => computes_pure c.inode

/-- The inode and the device of `minix3_clear_all_zones`. -/
theorem clearAllZones_computes (f_inode : Inode) :
    Computes ∅ (clearAllZones dev f_inode) fun m =>
      let c := Minix3.clearAllZones dev.bs (fun k => load32 (m.unknown 0) (4 * k)) m.fs.disk f_inode
      some (c.inode, ⟨{ m.fs with disk := c.disk }, fun n => m.unknown (n + 1)⟩) := by
  apply Computes.congr
  · apply (computes_onData _).bind
    intro behind
    apply (computes_onData _).bind
    intro disk
    apply Computes.ite (fun _ => leaveClear_computes _)
    intro _
    apply Computes.allocate
    intro buffer_I hI
    apply Computes.ite (fun _ => .release (Finset.notMem_empty _) (leaveClear_computes _))
    intro _
    apply Computes.allocate
    intro buffer_II hII
    apply Computes.ite
    · intro _
      rw [Finset.insert_comm]
      exact .release (by grind) (.release (Finset.notMem_empty _) (leaveClear_computes _))
    intro _
    apply Computes.allocate
    intro buffer_III hIII
    rw [Finset.insert_comm buffer_II, Finset.insert_comm buffer_III, Finset.insert_comm buffer_III]
    exact .release (by grind) (.release (by grind)
      (.release (Finset.notMem_empty _) (leaveClear_computes _)))
  · intro m
    simp only [guess_bind, reading_bind, Minix3.clearAllZones]
    generalize clearDirect dev.bs (Clear.start m.fs.disk f_inode) = c
    by_cases hdirect : c.remaining = 0
    · simp only [if_pos hdirect]
      rfl
    simp only [if_neg hdirect]
    generalize clearIndirect dev.bs c = c
    by_cases hindirect : c.remaining = 0
    · simp only [if_pos hindirect]
      rfl
    simp only [if_neg hindirect]
    generalize clearDoubly dev.bs _ c = c
    by_cases hdoubly : c.remaining = 0
    · simp only [if_pos hdoubly]
      rfl
    · simp only [if_neg hdoubly]
      rfl

end Leaves

/-! ## The blocks that stay -/

section Leaks

variable {dev : Mount} {own : Finset ℕ}

theorem unknown_frees : FreesOnly own unknown := (computes_onData _).freesOnly

/-- The way out of most calls. -/
theorem free_and_return {α : Type} {b : ℕ} (hb : b ∈ own) (a : α) :
    FreesOnly own (kfree b >>= fun _ => pure a : Op α) :=
  (freesOnly_release hb).bind fun _ => freesOnly_pure a

theorem hang_frees {α : Type} : FreesOnly own (hang : Op α) := (computes_onData _).freesOnly

theorem inodeTransferCommon_leaks {α : Type} {transfer : ℕ → Op α} (inode_num : Word)
    (h : ∀ o, FreesOnly ∅ (transfer o)) : Leaks ∅ (inodeTransferCommon dev inode_num transfer) := by
  obtain ⟨code, hread⟩ := blockReadWrite_read dev MX3_BOOT_BLOCK_SIZE
    (MX3_BOOT_BLOCK_SIZE + dev.sector)
  simp only [inodeTransferCommon, getSuperblock, bind_assoc, pure_bind]
  apply leaks_allocate
  intro sb
  apply hread.freesOnly.bind
  intro _
  apply (computes_onData _).freesOnly.bind
  intro super
  exact (h _).bind fun _ => freesOnly_pure _

theorem getInode_leaks (inode_num : Word) : Leaks ∅ (getInode dev inode_num) :=
  inodeTransferCommon_leaks inode_num fun _ =>
    (blockReadArbitrary_computes _ _).freesOnly.bind fun _ => freesOnly_pure _

theorem putInode_leaks (inode_num : Word) (inode : Inode) :
    Leaks ∅ (putInode dev inode_num inode) :=
  inodeTransferCommon_leaks inode_num fun _ => (blockWriteArbitrary_computes _ _ _).freesOnly

theorem setZoneAs_frees (zone_num : Word) (as : Bool) : FreesOnly own (setZoneAs dev zone_num as) :=
  (setZoneAs_computes zone_num as).freesOnly

theorem setInodeAs_frees (inode_num : Word) (as : Bool) :
    FreesOnly own (setInodeAs dev inode_num as) :=
  (setInodeAs_computes inode_num as).freesOnly

theorem gzbars_frees (f_inode : Inode) (zone_index : ℕ) :
    FreesOnly own (gzbars dev f_inode zone_index) :=
  (gzbars_computes f_inode zone_index).freesOnly

theorem setZoneTo_frees (f_inode : Inode) (zone_index : ℕ) (target : Word) :
    FreesOnly own (setZoneTo dev f_inode zone_index target) :=
  (zoneWalker_computes _ _ _).freesOnly.bind fun _ => freesOnly_pure _

theorem lastFileZoneFrom_frees (f_inode : Inode) (n : ℕ) (zone_num : Word) :
    FreesOnly own (lastFileZoneFrom dev f_inode n zone_num) := by
  induction n generalizing zone_num with
  | zero => exact hang_frees
  | succ n ih =>
    apply (gzbars_frees _ _).bind
    intro _
    exact (ih _).ite (freesOnly_pure _)

theorem getLastFileZone_frees (f_inode : Inode) : FreesOnly own (getLastFileZone dev f_inode) :=
  (freesOnly_pure _).ite (lastFileZoneFrom_frees _ _ _)

theorem appendZone_frees (f_inode : Inode) : FreesOnly own (appendZone dev f_inode) := by
  apply FreesOnly.bind
  · exact (freesOnly_pure _).ite ((getLastFileZone_frees _).bind fun _ => freesOnly_pure _)
  intro next_zone
  apply getAvailableZone_computes.freesOnly.bind
  intro new_zone
  apply (setZoneAs_frees _ _).bind
  intro _
  exact (setZoneTo_frees _ _ _).bind fun _ => freesOnly_pure _

theorem clearZone_frees (f_inode : Inode) (zone_index : ℕ) :
    FreesOnly own (clearZone dev f_inode zone_index) := by
  apply FreesOnly.bind
  · exact (zoneWalker_computes _ _ _).freesOnly.bind fun _ => freesOnly_pure _
  intro cleared_zone
  apply (setZoneAs_frees _ _).bind
  intro _
  exact (setZoneTo_frees _ _ _).bind fun _ => freesOnly_pure _

theorem appendBlocks_frees (n : ℕ) (a : Append) : FreesOnly own (appendBlocks dev n a) := by
  induction n generalizing a with
  | zero => exact hang_frees
  | succ n ih =>
    apply (freesOnly_pure _).ite
    apply (appendZone_frees _).bind
    intro _
    exact (blockWriteArbitrary_computes _ _ _).freesOnly.bind fun _ => ih _

theorem fillBlock_frees (address remaining : ℕ) (a : Append) :
    FreesOnly own (fillBlock dev address remaining a) :=
  FreesOnly.ite ((blockWriteArbitrary_computes _ _ _).freesOnly.bind fun _ => freesOnly_pure _)
    (freesOnly_pure _)

theorem appendToFile_leaks (file_inode_num : Word) (buffer : Mem) (size : Word) :
    Leaks ∅ (appendToFile dev file_inode_num buffer size) := by
  apply Leaks.allocate
  intro f_inode
  apply (getInode_leaks _).bind
  rintro ⟨retval, node⟩
  apply FreesOnly.ite
  · exact free_and_return (by simp) _
  apply FreesOnly.allocate
  intro zone
  apply (getLastFileZone_frees _).bind
  intro i
  apply (gzbars_frees _ _).bind
  rintro ⟨address_on_block, remaining_file_size⟩
  apply (fillBlock_frees _ _ _).bind
  intro a
  apply (appendBlocks_frees _ _).bind
  intro node
  apply (freesOnly_release (by simp)).bind
  intro _
  apply (putInode_leaks _ _).freesOnly.bind
  intro _
  exact free_and_return (by simp) _

theorem readDirs_frees (address : ℕ) : FreesOnly own (readDirs dev address) := by
  apply unknown_frees.bind
  intro behind
  exact (blockReadArbitrary_computes _ _).freesOnly.bind fun _ => freesOnly_pure _

theorem searchZones_frees (dir : Inode) (name : CString) (n i : ℕ) (found : Option (Word × Inode)) :
    FreesOnly own (searchZones dev dir name n i found) := by
  induction n generalizing i found with
  | zero => exact freesOnly_pure _
  | succ n ih =>
    apply (gzbars_frees _ _).bind
    rintro ⟨address_on_block, remaining_size⟩
    apply (freesOnly_pure _).ite
    apply (ih _ _).ite
    apply (readDirs_frees _).bind
    intro dirs
    cases findName dev.bs dirs name with
    | none => exact ih _ _
    | some j => exact (getInode_leaks _).freesOnly.bind fun _ => ih _ _

theorem getInodeFromName_frees (dir : Inode) (name : CString) :
    FreesOnly own (getInodeFromName dev dir name) := by
  apply (freesOnly_pure _).ite
  apply FreesOnly.allocate
  intro zone
  apply (searchZones_frees _ _ _ _ _).bind
  intro found
  exact free_and_return (by simp) _

theorem removeEntries_frees (dir : Inode) (child : Word) (n i : ℕ) :
    FreesOnly own (removeEntries dev dir child n i) := by
  induction n generalizing i with
  | zero => exact freesOnly_pure _
  | succ n ih =>
    apply (gzbars_frees _ _).bind
    rintro ⟨zone_baddr, remaining_size⟩
    apply (freesOnly_pure _).ite
    apply (ih _).ite
    apply (readDirs_frees _).bind
    intro dirs
    cases findInode dev.bs dirs child with
    | none => exact ih _
    | some j => exact (blockWriteArbitrary_computes _ _ _).freesOnly.bind fun _ => ih _

theorem onParent_leaks {rest : ℕ → Inode → Op ℕ} (parent_inode_num : Word)
    (hrest : ∀ dir dirNode, FreesOnly (insert dir ∅) (rest dir dirNode)) :
    Leaks ∅ (onParent dev parent_inode_num rest) := by
  apply Leaks.allocate
  intro dir
  apply (getInode_leaks _).bind
  rintro ⟨retval, dirNode⟩
  apply FreesOnly.ite
  · exact free_and_return (by simp) _
  apply FreesOnly.ite
  · exact free_and_return (by simp) _
  exact hrest dir dirNode

theorem touchCommon_leaks (parent_inode_num : Word) (fname : CString)
    (f_mode f_uid f_gid : BitVec 16) :
    Leaks ∅ (touchCommon dev parent_inode_num fname f_mode f_uid f_gid) := by
  apply onParent_leaks
  intro dir dirNode
  apply FreesOnly.allocate
  intro pn
  apply (getInodeFromName_frees _ _).bind
  intro lookup
  apply (freesOnly_release (by simp)).bind
  intro _
  apply (freesOnly_pure _).ite
  apply getAvailableInode_computes.freesOnly.bind
  intro new_inode_num
  apply (setInodeAs_frees _ _).bind
  intro _
  apply FreesOnly.allocate
  intro new_inode
  apply FreesOnly.allocate
  intro new_dir_entry
  apply (putInode_leaks _ _).freesOnly.bind
  intro _
  apply (appendToFile_leaks _ _ _).freesOnly.bind
  intro _
  apply (freesOnly_release (by simp)).bind
  intro _
  exact free_and_return (by simp) _

theorem rm_leaks (parent_inode_num : Word) (fname : CString) :
    Leaks ∅ (rm dev parent_inode_num fname) := by
  apply onParent_leaks
  intro dir dirNode
  apply FreesOnly.allocate
  intro child_inode
  apply (getInodeFromName_frees _ _).bind
  intro lookup
  have hrefused : FreesOnly (insert child_inode (insert dir ∅)) (do
      kfree dir
      kfree child_inode
      pure MX3_RETURN_CODE_IS_DIRECTORY : Op ℕ) :=
    (freesOnly_release (by simp)).bind fun _ => free_and_return (by simp) _
  cases lookup with
  | nonDirectory => exact hrefused
  | notFound => exact hrefused
  | directory _ _ => exact hrefused
  | file child_inode_num childNode =>
    apply FreesOnly.bind
    · exact (clearAllZones_computes _).freesOnly.ite (freesOnly_pure _)
    intro _
    apply (setInodeAs_frees _ _).bind
    intro _
    apply (freesOnly_release (by simp)).bind
    intro _
    apply FreesOnly.allocate
    intro zone
    apply (removeEntries_frees _ _ _ _).bind
    intro _
    apply (freesOnly_release (by simp)).bind
    intro _
    exact free_and_return (by simp) _

theorem mkdir_leaks (parent_inode_num : Word) (dirname : CString) :
    Leaks ∅ (mkdir dev parent_inode_num dirname) := by
  apply (touchCommon_leaks _ _ _ _ _).bind
  intro retval
  apply (freesOnly_pure _).ite
  apply FreesOnly.allocate
  intro dir
  apply FreesOnly.allocate
  intro new_inode
  apply (getInode_leaks _).freesOnly.bind
  rintro ⟨_, dirNode⟩
  apply unknown_frees.bind
  intro stack
  apply (getInodeFromName_frees _ _).bind
  intro lookup
  cases lookup.found.getD (load32 stack 0, Inode.zero) with | mk new_inode_num newNode =>
  apply (putInode_leaks _ _).freesOnly.bind
  intro _
  apply (putInode_leaks _ _).freesOnly.bind
  intro _
  apply (freesOnly_release (by simp)).bind
  intro _
  apply (freesOnly_release (by simp)).bind
  intro _
  apply FreesOnly.allocate
  intro new_dot
  apply FreesOnly.allocate
  intro new_dot_dot
  apply (appendToFile_leaks _ _ _).freesOnly.bind
  intro _
  apply (appendToFile_leaks _ _ _).freesOnly.bind
  intro _
  apply (freesOnly_release (by simp)).bind
  intro _
  exact free_and_return (by simp) _

theorem rmdirCheck_frees (dir_node : Inode) : FreesOnly own (rmdirCheck dev dir_node) := by
  apply (freesOnly_pure _).ite
  apply FreesOnly.allocate
  intro pn
  apply (getInodeFromName_frees _ _).bind
  intro _
  apply (getInodeFromName_frees _ _).bind
  intro _
  apply (freesOnly_release (by simp)).bind
  intro _
  exact (freesOnly_pure _).ite (freesOnly_pure _)

theorem rmdir_leaks (parent_inode_num : Word) (dirname : CString) :
    Leaks ∅ (rmdir dev parent_inode_num dirname) := by
  apply onParent_leaks
  intro dir dirNode
  apply FreesOnly.allocate
  intro child_inode
  apply (getInodeFromName_frees _ _).bind
  intro lookup
  have hrefused (code : ℕ) : FreesOnly (insert child_inode (insert dir ∅)) (do
      kfree dir
      kfree child_inode
      pure code : Op ℕ) :=
    (freesOnly_release (by simp)).bind fun _ => free_and_return (by simp) _
  cases lookup with
  | nonDirectory => exact hrefused _
  | notFound => exact hrefused _
  | file _ _ => exact hrefused _
  | directory child_inode_num childNode =>
    apply (rmdirCheck_frees _).bind
    intro retval
    apply (hrefused _).ite
    apply (hrefused _).ite
    apply (getLastFileZone_frees _).bind
    intro child_data_zone
    apply (freesOnly_pure _).ite
    apply (clearZone_frees _ _).bind
    intro _
    apply (setInodeAs_frees _ _).bind
    intro _
    apply (freesOnly_release (by simp)).bind
    intro _
    apply FreesOnly.allocate
    intro zone
    apply (removeEntries_frees _ _ _ _).bind
    intro _
    apply (freesOnly_release (by simp)).bind
    intro _
    apply (putInode_leaks _ _).freesOnly.bind
    intro _
    exact free_and_return (by simp) _

end Leaks

/-! ## The look-up of a name -/

def Machine.next (m : Machine) : Machine := { m with unknown := fun n => m.unknown (n + 1) }

/-- The directory zones that the search reads from file index `i` on, while no name matches. -/
def scannedZones (bs : ℕ) (dir : Inode) : ℕ → ℕ → Machine → List Mem
  | 0, _, _ => []
  | n + 1, i, m =>
    match locating bs dir i m with
    | none => []
    | some ((address_on_block, remaining_size), m) =>
      if remaining_size = 0 then []
      else if address_on_block = 0 then scannedZones bs dir n (i + 1) m
      else blit (m.unknown 0) 0 bs (window m.fs.disk address_on_block) ::
        scannedZones bs dir n (i + 1) m.next

section Lookup

variable {dev : Mount}

theorem readDirs_computes (address : ℕ) :
    Computes ∅ (readDirs dev address) fun m =>
      some (blit (m.unknown 0) 0 dev.bs (window m.fs.disk address), m.next) := by
  apply Computes.congr
  · apply (computes_onData _).bind
    intro behind
    exact (blockReadArbitrary_computes _ _).bind fun _ => computes_pure _
  · intro m
    rfl

theorem searchZones_live (dir : Inode) (name : CString) (n i : ℕ) (found : Option (Word × Inode))
    {h h' : Heap ℕ Machine} {r : Option (Word × Inode)}
    (hrun : searchZones dev dir name n i found h = .ok (r, h')) :
    h'.live = h.live ↔
      ∀ dirs ∈ scannedZones dev.bs dir n i h.data, findName dev.bs dirs name = none := by
  induction n generalizing i found h with
  | zero =>
    cases hrun
    simp [scannedZones]
  | succ n ih =>
    obtain ⟨⟨address_on_block, remaining_size⟩, mid, hgz, hrest⟩ := bind_returns hrun
    obtain ⟨hloc, hlive⟩ := (gzbars_computes dir i).returns hgz
    simp only [scannedZones, hloc]
    by_cases hremaining : remaining_size = 0
    · simp only [if_pos hremaining] at hrest ⊢
      cases hrest
      simp [hlive]
    simp only [if_neg hremaining] at hrest ⊢
    by_cases haddress : address_on_block = 0
    · simp only [if_pos haddress] at hrest ⊢
      rw [← hlive]
      exact ih _ _ hrest
    simp only [if_neg haddress] at hrest ⊢
    obtain ⟨dirs, past, hdirs, hrest⟩ := bind_returns hrest
    obtain ⟨hread, hpast⟩ := (readDirs_computes address_on_block).returns hdirs
    simp only [Option.some.injEq, Prod.mk.injEq] at hread
    obtain ⟨rfl, hdata⟩ := hread
    simp only [List.mem_cons, forall_eq_or_imp]
    cases hfind : findName dev.bs (blit (mid.data.unknown 0) 0 dev.bs
        (window mid.data.fs.disk address_on_block)) name with
    | none =>
      simp only [hfind] at hrest
      rw [hdata, ← hlive, ← hpast, ih _ _ hrest]
      simp only [true_and]
    | some j =>
      simp only [hfind] at hrest
      obtain ⟨⟨code, fill⟩, leaked, hfill, hrest⟩ := bind_returns hrest
      have hgrown := (getInode_leaks _).ssubset hfill
      have hkept : leaked.live \ ∅ ⊆ h'.live := searchZones_frees _ _ _ _ _ _ _ _ hrest
      rw [Finset.sdiff_empty] at hkept
      rw [hpast, hlive] at hgrown
      have hmore := hgrown.trans_subset hkept
      exact ⟨fun heq => absurd heq.symm hmore.ne, fun hquiet => absurd hquiet.1 (by simp)⟩

/-- The buffer `zone` is freed on the way out. -/
theorem getInodeFromName_live (dir : Inode) (name : CString) {h h' : Heap ℕ Machine} {r : Lookup}
    (hrun : getInodeFromName dev dir name h = .ok (r, h')) :
    h'.live = h.live ↔ dir.isDirectory = false ∨
      ∀ dirs ∈ scannedZones dev.bs dir (getFileMaxZones dev.bs) 0 h.data,
        findName dev.bs dirs name = none := by
  unfold getInodeFromName at hrun
  cases hdir : dir.isDirectory with
  | false =>
    simp only [hdir] at hrun
    cases hrun
    simp
  | true =>
    simp only [hdir] at hrun
    obtain ⟨zone, mid, hzone, hrest⟩ := bind_returns hrun
    obtain ⟨found, past, hsearch, hrest⟩ := bind_returns hrest
    obtain ⟨_, last, hfree, hrest⟩ := bind_returns hrest
    obtain ⟨hmem, herase⟩ := release_returns hfree
    cases hrest
    cases hzone
    rw [herase, Finset.erase_eq_iff_eq_insert hmem (dev.heap.pick_fresh h.live)]
    simpa using searchZones_live dir name _ _ _ hsearch

end Lookup

/-! ## The calls -/

inductive Call
  | getInode (inode_num : Word)
  | putInode (inode_num : Word) (inode : Inode)
  | getInodeFromName (dir : Inode) (name : CString)
  | touchReg (parent_inode_num : Word) (fname : CString)
  | rm (parent_inode_num : Word) (fname : CString)
  | mkdir (parent_inode_num : Word) (dirname : CString)
  | rmdir (parent_inode_num : Word) (dirname : CString)
  | appendToFile (file_inode_num : Word) (buffer : Mem) (size : Word)

namespace Call

/-- What a call returns; only its heap matters here. -/
def Result : Call → Type
  | getInode _ => ℕ × Inode
  | putInode _ _ => ℕ × Unit
  | getInodeFromName _ _ => Lookup
  | _ => ℕ

def run (dev : Mount) : (call : Call) → Op call.Result
  | getInode inode_num => FileOps.getInode dev inode_num
  | putInode inode_num inode => FileOps.putInode dev inode_num inode
  | getInodeFromName dir name => FileOps.getInodeFromName dev dir name
  | touchReg parent_inode_num fname => FileOps.touchReg dev parent_inode_num fname
  | rm parent_inode_num fname => FileOps.rm dev parent_inode_num fname
  | mkdir parent_inode_num dirname => FileOps.mkdir dev parent_inode_num dirname
  | rmdir parent_inode_num dirname => FileOps.rmdir dev parent_inode_num dirname
  | appendToFile file_inode_num buffer size =>
    FileOps.appendToFile dev file_inode_num buffer size

/-- A look-up that comes to no entry of the name. -/
def ReadsNoInode (bs : ℕ) (m : Machine) : Call → Prop
  | getInodeFromName dir name => dir.isDirectory = false ∨
      ∀ dirs ∈ scannedZones bs dir (getFileMaxZones bs) 0 m, findName bs dirs name = none
  | _ => False

end Call

/-- Reading or writing an inode keeps the superblock that it has fetched. -/
theorem live_blocks_iff (dev : Mount) (call : Call) {h h' : Heap ℕ Machine} {r : call.Result}
    (hrun : call.run dev h = .ok (r, h')) :
    h'.live = h.live ↔ call.ReadsNoInode dev.bs h.data := by
  have hleaks {α : Type} {op : Op α} {a : α} (hop : Leaks ∅ op) (hrun : op h = .ok (a, h')) :
      h'.live = h.live ↔ False :=
    iff_false_intro (hop.ssubset hrun).ne'
  cases call with
  | getInode _ => exact hleaks (getInode_leaks _) hrun
  | putInode _ _ => exact hleaks (putInode_leaks _ _) hrun
  | getInodeFromName dir name => exact getInodeFromName_live dir name hrun
  | touchReg _ _ => exact hleaks (touchCommon_leaks _ _ _ _ _) hrun
  | rm _ _ => exact hleaks (rm_leaks _ _) hrun
  | mkdir _ _ => exact hleaks (mkdir_leaks _ _) hrun
  | rmdir _ _ => exact hleaks (rmdir_leaks _ _) hrun
  | appendToFile _ _ _ => exact hleaks (appendToFile_leaks _ _ _) hrun

/-- A heap that hands out the number behind the largest one in use, and 512-byte sectors. -/
def smallMount : Mount where
  heap := nextBlock
  sector := 512
  bs := 1024
  sector_fits := by decide
  sector_aligned := by decide

/-- A directory of one entry, the file `f` with inode 7, in zone 5. -/
def oneEntry : Inode :=
  { Inode.zero with mode := MX3_MODE_DIRECTORY, size := 64, zones := fun i => if i = 0 then 5 else 0 }

def smallHeap : Heap ℕ Machine where
  live := ∅
  data :=
    { fs := ⟨fun a => if a = 5120 then 7 else if a = 5124 then 0x66 else 0, 0, 1⟩
      unknown := fun _ _ => 0 }

/-- The name `g`, which the directory does not have. -/
def absentName : CString := ⟨[0x67], by decide⟩

theorem small_search (n : ℕ) :
    ∃ data, searchZones smallMount oneEntry absentName (n + 2) 0 none ⟨{1}, smallHeap.data⟩ =
      .ok (none, ⟨{1}, data⟩) :=
  ⟨_, rfl⟩

theorem small_scan (n : ℕ) :
    (scannedZones 1024 oneEntry (n + 2) 0 smallHeap.data).map (findName 1024 · absentName) =
      [none] := rfl

theorem live_blocks_iff_absent :
    ∃ r h', (Call.getInodeFromName oneEntry absentName).run smallMount smallHeap = .ok (r, h') ∧
      h'.live = smallHeap.live := by
  have hzones : getFileMaxZones 1024 = 16843013 + 2 := by decide
  obtain ⟨data, hsearch⟩ := small_search 16843013
  have hrun : (Call.getInodeFromName oneEntry absentName).run smallMount smallHeap =
      .ok (.notFound, ⟨∅, data⟩) := by
    change searchZones smallMount oneEntry absentName (getFileMaxZones 1024) 0 none
      ⟨{1}, smallHeap.data⟩ >>= (fun p => (kfree 1 >>= fun _ => pure (Lookup.ofFound p.1)) p.2) = _
    rw [hzones, hsearch]
    rfl
  refine ⟨_, _, hrun, (live_blocks_iff smallMount _ hrun).mpr (Or.inr fun dirs hdirs => ?_)⟩
  change dirs ∈ scannedZones 1024 oneEntry (getFileMaxZones 1024) 0 smallHeap.data at hdirs
  rw [hzones] at hdirs
  have hname := List.mem_map_of_mem (f := (findName 1024 · absentName)) hdirs
  rw [small_scan] at hname
  exact List.mem_singleton.mp hname

/-- Reading inode 1 leaves one block more. -/
theorem getInode_keeps_superblock :
    ∃ r h', (Call.getInode 1).run smallMount smallHeap = .ok (r, h') ∧
      h'.live ≠ smallHeap.live :=
  ⟨_, _, rfl, by decide⟩

end Minix3.FileOps
