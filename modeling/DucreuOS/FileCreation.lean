import DucreuOS.FileAppending

/-! # Creating a file

`minix3_touch_reg` on a consistent device, and what later calls of `minix3_append_to_file` make of
the new file and of the others. The new inode is the one that the search for a free one returns. -/
namespace Minix3

open ByteMemory

/-! ## An inode is taken -/

section Taking

variable {bs : ℕ} {disk : Mem} {m n : Word} {inode : Inode}

theorem setInodeOccupied_free (h : FreeInode bs disk n) :
    setInodeOccupied bs disk n = setBit disk (imapStart bs) (n - 1).toNat := by
  have hr : isInodeInRange disk n = true :=
    inodeInRange_iff.mpr ⟨h.1.1, Nat.le_succ_of_le h.1.2⟩
  simp only [setInodeOccupied, setInodeAs, if_neg h.1.1, h.2, hr, if_true, Bool.not_true,
    Bool.false_eq_true, if_false]

/-- Only a byte of the bitmap of the inodes is written. -/
theorem setInodeOccupied_outside (hl : ImageLayout bs disk) (h : FreeInode bs disk n) {x : ℕ}
    (hx : x < imapStart bs ∨ (getSuperblock disk).zmapStart bs ≤ x) :
    setInodeOccupied bs disk n x = disk x := by
  have himap := hl.imap
  have hle := h.1.2
  obtain ⟨hpred, hpos⟩ := h.1.pred
  rw [setInodeOccupied_free h]
  apply setBit_apart
  omega

theorem setInodeOccupied_super (hl : ImageLayout bs disk) (h : FreeInode bs disk n) :
    getSuperblock (setInodeOccupied bs disk n) = getSuperblock disk :=
  getSuperblock_congr fun _ hx =>
    setInodeOccupied_outside hl h (Or.inl (hx.trans_le hl.imapSuper))

theorem isInodeOccupied_set (h : FreeInode bs disk n) (hm : m ≠ 0) :
    isInodeOccupied bs (setInodeOccupied bs disk n) m
      = (decide (m = n) || isInodeOccupied bs disk m) := by
  have hsub : (m - 1).toNat = (n - 1).toNat ↔ m = n := by
    rw [BitVec.toNat_inj, sub_left_inj]
  rw [setInodeOccupied_free h]
  simp only [isInodeOccupied, bitAt_setBit, hm, ne_eq, not_false_eq_true, decide_true,
    Bool.true_and, hsub]

theorem setInodeOccupied_map (hl : ImageLayout bs disk) (h : FreeInode bs disk n) :
    SameMap bs disk (setInodeOccupied bs disk n) :=
  ⟨setInodeOccupied_super hl h, fun _ _ hx => setInodeOccupied_outside hl h (Or.inr hx)⟩

theorem setInodeOccupied_inTable (hl : ImageLayout bs disk) (h : FreeInode bs disk n) :
    InTable (setInodeOccupied bs disk n) m ↔ InTable disk m := by
  rw [InTable, setInodeOccupied_super hl h, InTable]

theorem setInodeOccupied_inUse (hl : ImageLayout bs disk) (h : FreeInode bs disk n) :
    InUse bs (setInodeOccupied bs disk n) m ↔ m = n ∨ InUse bs disk m := by
  rw [InUse, setInodeOccupied_inTable hl h, InUse]
  by_cases hm : m = n
  · subst hm
    rw [isInodeOccupied_set h h.1.1]
    simp [h.1]
  · simp only [hm, false_or]
    refine and_congr_right fun hm' => ?_
    rw [isInodeOccupied_set h hm'.1]
    simp [hm]

theorem setInodeOccupied_getInode (hl : ImageLayout bs disk) (h : FreeInode bs disk n)
    (hm : InTable disk m) :
    getInode bs (setInodeOccupied bs disk n) m = getInode bs disk m := by
  have hstart := (inodeAddr_bounds hl hm).1
  simp only [getInode, inodeAddr, setInodeOccupied_super hl h]
  apply inode_load_congr
  intro i _
  apply setInodeOccupied_outside hl h
  simp only [inodeAddr, zmapEnd] at hstart
  omega

theorem setInodeOccupied_kept (hl : ImageLayout bs disk) (h : FreeInode bs disk n)
    (hm : MarkedZones bs disk inode) : Kept bs disk (setInodeOccupied bs disk n) inode :=
  .of_map hl.toZoneLayout hm (setInodeOccupied_map hl h) fun _ hx =>
    setInodeOccupied_outside hl h (Or.inr (((Nat.le_add_right _ _).trans hl.bitmap).trans hx))

end Taking

/-! ## An empty file -/

section Empty

variable {bs : ℕ} {disk : Mem} {inode other : Inode}

theorem empty_node (h : ∀ i, inode.zones i = 0) (n : Node) : nodeZone bs disk inode n = 0 := by
  cases n <;> simp [nodeZone, fileZone, zoneUnder, pointerBlock, blockSlot, h]

theorem empty_distinct (h : ∀ i, inode.zones i = 0) : DistinctZones bs disk inode :=
  fun m _ _ _ hz => absurd (empty_node h m) hz

theorem empty_marked (h : ∀ i, inode.zones i = 0) : MarkedZones bs disk inode :=
  fun n _ hz => absurd (empty_node h n) hz

theorem empty_apart (h : ∀ i, inode.zones i = 0) (other : Inode) : Apart bs disk inode other :=
  fun m _ _ _ hz => absurd (empty_node h m) hz

theorem empty_whole (h : ∀ i, inode.zones i = 0) (hsize : inode.size = 0) :
    Whole bs disk inode := by
  have hzero : inode.size.toNat = 0 := by rw [hsize]; rfl
  constructor
  · intro j _
    rw [hzero]
    exact iff_of_false (not_not.mpr (empty_node h (.data j))) (Nat.not_lt_zero _)
  · rw [hzero]
    exact Nat.zero_le _

theorem empty_contents (hsize : inode.size = 0) : contents bs disk inode = [] := by
  rw [contents, hsize]
  rfl

/-- A file of at most one zone. -/
theorem single_node (h : ∀ i ≠ 0, inode.zones i = 0) {n : Node}
    (hz : nodeZone bs disk inode n ≠ 0) : n = .data 0 := by
  have h7 : inode.zones MX3_IDZONE = 0 := h _ (by decide)
  have h8 : inode.zones MX3_IIDZONE = 0 := h _ (by decide)
  have h9 : inode.zones MX3_IIIDZONE = 0 := h _ (by decide)
  cases n with
  | data j =>
    by_cases hj : j < 7
    · simp only [nodeZone, fileZone, zoneUnder, if_pos hj] at hz
      have hj0 : Fin.ofNat 10 j = 0 := by
        by_contra hne
        exact hz (h _ hne)
      have hval := congrArg Fin.val hj0
      simp only [Fin.val_ofNat, Fin.val_zero] at hval
      rw [Nat.mod_eq_of_lt (by omega)] at hval
      rw [hval]
    · exact absurd (by simp [nodeZone, fileZone, zoneUnder, hj, pointerBlock, blockSlot, h7, h8,
        h9]) hz
  | block b => exact absurd (by simp [nodeZone, pointerBlock, blockSlot, h7, h8, h9]) hz
  | doubly => exact absurd h8 hz
  | triply => exact absurd h9 hz
  | second l => exact absurd (by simp [nodeZone, blockSlot, h9]) hz

end Empty

theorem inode_available {bs : ℕ} {fs : Fs} (hstay : StaysInTable bs fs)
    (hfree : ∃ n, FreeInode bs fs.disk n) :
    ∃ n, getAvailableInode bs fs = some ({ fs with inodeCursor := n }, n) ∧
      FreeInode bs fs.disk n := by
  obtain ⟨m, hm⟩ := hfree
  obtain ⟨n, hn⟩ := inode_found (inodeSearchStart_in_range fs) hm
  exact ⟨n, getAvailableInode_of hn, stays_in_table hstay hn⟩

/-- Inode `n` has been taken for `inode`; the files that were there are kept. -/
structure Created (bs : ℕ) (disk disk' : Mem) (n : Word) (inode : Inode) : Prop where
  map : SameMap bs disk disk'
  inUse : ∀ m, InUse bs disk' m ↔ m = n ∨ InUse bs disk m
  own : getInode bs disk' n = inode
  other : ∀ m, InUse bs disk m → getInode bs disk' m = getInode bs disk m ∧
    Kept bs disk disk' (getInode bs disk m)
  consistent : Consistent bs disk'

theorem FreeInode.not_inUse {bs : ℕ} {disk : Mem} {n : Word} (h : FreeInode bs disk n) :
    ¬ InUse bs disk n := by
  rintro ⟨-, hocc⟩
  rw [h.2] at hocc
  cases hocc

theorem Consistent.create {bs : ℕ} {disk : Mem} {n : Word} {inode : Inode}
    (hc : Consistent bs disk) (hn : FreeInode bs disk n) (hempty : ∀ i, inode.zones i = 0) :
    Created bs disk (putInode bs (setInodeOccupied bs disk n) n inode) n inode := by
  have hl := hc.layout
  have hmap := setInodeOccupied_map hl hn
  have hl' := hl.congr hmap.super
  have hn' := (setInodeOccupied_inTable hl hn).mpr hn.1
  have hput := putInode_map inode hl' hn'
  have hown := getInode_putInode inode hl' hn'
  have huse (m : Word) : InUse bs (putInode bs (setInodeOccupied bs disk n) n inode) m ↔
      m = n ∨ InUse bs disk m := by
    rw [inUse_congr hput.super hl' fun x hx => putInode_outside inode hl' hn'
      (Or.inl (hx.trans_le (Nat.le_add_right _ _))), setInodeOccupied_inUse hl hn]
  have hother (m : Word) (hm : InUse bs disk m) :
      getInode bs (putInode bs (setInodeOccupied bs disk n) n inode) m = getInode bs disk m ∧
        Kept bs disk (putInode bs (setInodeOccupied bs disk n) n inode) (getInode bs disk m) := by
    have hne : m ≠ n := fun heq => hn.not_inUse (heq ▸ hm)
    have hkept := setInodeOccupied_kept hl hn (hc.marked m hm)
    refine ⟨?_, hkept.trans (putInode_kept inode hl' hn' hkept.marks)⟩
    rw [getInode_putInode_ne inode hl' hn' ((setInodeOccupied_inTable hl hn).mpr hm.1) hne,
      setInodeOccupied_getInode hl hn hm.1]
  refine ⟨hmap.trans hput, huse, hown, hother, hl'.congr hput.super, fun m hm => ?_,
    fun m hm => ?_, fun m k hm hk hne => ?_⟩
  · rcases (huse m).mp hm with rfl | hm
    · rw [hown]
      exact empty_distinct hempty
    · rw [(hother m hm).1]
      exact (hother m hm).2.distinct (hc.distinct m hm)
  · rcases (huse m).mp hm with rfl | hm
    · rw [hown]
      exact empty_marked hempty
    · rw [(hother m hm).1]
      exact (hother m hm).2.marks
  · rcases (huse m).mp hm with rfl | hm
    · rw [hown]
      exact empty_apart hempty _
    · rcases (huse k).mp hk with rfl | hk
      · rw [hown]
        exact (empty_apart hempty _).symm
      · rw [(hother m hm).1, (hother k hk).1]
        exact (hother m hm).2.apart (hother k hk).2 (hc.apart m k hm hk hne)

namespace FileOps

open LiveBlocks

/-! ## The look-up of a name -/

section Lookup

variable {dev : Mount} {fs : Fs}

theorem readDirs_ensures (address : ℕ) :
    Ensures ∅ (At fs) (readDirs dev address) fun _ => At fs := by
  apply (readDirs_computes address).ensures
  rintro m rfl
  exact ⟨_, _, rfl, rfl⟩

/-- A look-up in any directory ends and changes nothing. -/
theorem searchZones_ensures (hppz : 0 < ppz dev.bs) (dir : Inode) (name : CString) (n i : ℕ)
    (found : Option (Word × Inode)) :
    Ensures ∅ (At fs) (searchZones dev dir name n i found) fun _ => At fs := by
  induction n generalizing i found with
  | zero => exact ensures_pure _ fun m hm => hm
  | succ n ih =>
    apply (gzbars_ensures hppz dir i).bind
    rintro ⟨address_on_block, remaining_size⟩
    apply Ensures.ite
    · exact fun _ => ensures_pure _ fun m hm => hm
    intro _
    apply Ensures.ite
    · exact fun _ => ih (i + 1) found
    intro _
    apply (readDirs_ensures address_on_block).bind
    intro dirs
    cases findName dev.bs dirs name with
    | none => exact ih (i + 1) found
    | some j =>
      apply (getInode_ensures (entryInode dirs j)).step
      exact ih (i + 1) _

theorem getInodeFromName_ensures (hppz : 0 < ppz dev.bs) (dir : Inode) (name : CString) :
    Ensures ∅ (At fs) (getInodeFromName dev dir name) fun _ => At fs := by
  apply Ensures.ite
  · exact fun _ => ensures_pure _ fun m hm => hm
  intro _
  apply Ensures.allocate
  intro zone hzone
  apply (searchZones_ensures hppz dir name _ 0 none).bind
  intro found
  apply Ensures.release hzone
  exact ensures_pure _ fun m hm => hm

theorem getAvailableInode_ensures {fs' : Fs} {n : Word}
    (h : Minix3.getAvailableInode dev.bs fs = some (fs', n)) :
    Ensures ∅ (At fs) (getAvailableInode dev) fun a m => a = n ∧ At fs' m := by
  apply getAvailableInode_computes.ensures
  rintro m rfl
  rw [h]
  exact ⟨_, _, rfl, rfl, rfl⟩

end Lookup

/-! ## A call of `minix3_touch_reg` -/

section Touch

variable {dev : Mount} {fs : Fs} {k : ℕ} {parent : Word} {fname : CString}

/-- What a call that returns 0 leaves: a new empty file, whose entry stands behind those of the
parent directory. -/
structure Touched (bs : ℕ) (fs : Fs) (parent n : Word) (fname : CString) (fs' : Fs) : Prop where
  fresh : ¬ InUse bs fs.disk n
  consistent : Consistent bs fs'.disk
  inUse : ∀ m, InUse bs fs'.disk m ↔ m = n ∨ InUse bs fs.disk m
  whole : Whole bs fs'.disk (Minix3.getInode bs fs'.disk n)
  empty : contents bs fs'.disk (Minix3.getInode bs fs'.disk n) = []
  file : ∀ m, InUse bs fs.disk m → Whole bs fs.disk (Minix3.getInode bs fs.disk m) →
    Whole bs fs'.disk (Minix3.getInode bs fs'.disk m) ∧
      contents bs fs'.disk (Minix3.getInode bs fs'.disk m) =
        contents bs fs.disk (Minix3.getInode bs fs.disk m) ++
          if parent = m then listed (dirEntry n fname) dirEntrySize else []
  cursor : fs'.inodeCursor = n

/-- The parent directory has room for an entry, and an inode and the zones are free. -/
structure CanTouch (bs : ℕ) (fs : Fs) (parent : Word) (k : ℕ) : Prop where
  inUse : InUse bs fs.disk parent
  whole : Whole bs fs.disk (Minix3.getInode bs fs.disk parent)
  room : fileSize bs fs.disk parent + dirEntrySize ≤ blockStart bs (1 + ppz bs) * bs
  stays : StaysInTable bs fs
  inode : ∃ n, FreeInode bs fs.disk n
  zones : FreeAhead bs fs (k + growCost bs (fileSize bs fs.disk parent) dirEntrySize)

theorem CanTouch.mono {bs l : ℕ} (h : CanTouch bs fs parent k) (hl : l ≤ k) :
    CanTouch bs fs parent l :=
  { h with zones := h.zones.mono (Nat.add_le_add_right hl _) }

theorem touched {n : Word} {fs₁ fs' : Fs} {inode : Inode} (hc : Consistent dev.bs fs.disk)
    (hn : FreeInode dev.bs fs.disk n) (hempty : ∀ i, inode.zones i = 0) (hsize : inode.size = 0)
    (hp : InUse dev.bs fs.disk parent)
    (hcreated : Created dev.bs fs.disk fs₁.disk n inode) (hcursor : fs₁.inodeCursor = n)
    (ha : AppendedTo dev.bs fs₁ parent (listed (dirEntry n fname) dirEntrySize) fs') :
    Touched dev.bs fs parent n fname fs' := by
  have huse (m : Word) : InUse dev.bs fs'.disk m ↔ m = n ∨ InUse dev.bs fs.disk m :=
    (ha.grew.inUse m).trans (hcreated.inUse m)
  have hne : parent ≠ n := fun heq => hn.not_inUse (heq ▸ hp)
  have hwhole : Whole dev.bs fs₁.disk (Minix3.getInode dev.bs fs₁.disk n) := by
    rw [hcreated.own]
    exact empty_whole hempty hsize
  obtain ⟨hwhole', hcontents⟩ :=
    ha.file hcreated.consistent ((hcreated.inUse n).mpr (Or.inl rfl)) hwhole
  refine ⟨hn.not_inUse, ha.grew.consistent, huse, hwhole', ?_, fun m hm hw => ?_,
    ha.cursor.trans hcursor⟩
  · rw [hcontents, if_neg hne, hcreated.own, empty_contents hsize]
    rfl
  · obtain ⟨hsame, hkept⟩ := hcreated.other m hm
    have hw₁ : Whole dev.bs fs₁.disk (Minix3.getInode dev.bs fs₁.disk m) := by
      rw [hsame]
      exact hkept.whole hw
    obtain ⟨hw', hcontents'⟩ :=
      ha.file hcreated.consistent ((hcreated.inUse m).mpr (Or.inr hm)) hw₁
    refine ⟨hw', ?_⟩
    rw [hcontents', hsame, hkept.contents hc.layout.pos hw]

/-- A call for a name that the look-up does not find takes an inode and appends an entry for it. -/
theorem touchCommon_enters {L : Lookup → Prop} {Q : Word → Fs → Fs → Prop}
    {f_mode f_uid f_gid : BitVec 16} (fname : CString) (hc : Consistent dev.bs fs.disk)
    (hcan : CanTouch dev.bs fs parent k)
    (hlookup : Ensures ∅ (At fs) (getInodeFromName dev (Minix3.getInode dev.bs fs.disk parent) fname)
      fun lookup m => L lookup ∧ At fs m)
    (happend : ∀ n fs₁, FreeInode dev.bs fs.disk n →
      Created dev.bs fs.disk fs₁.disk n (newInode f_mode f_uid f_gid) → fs₁.inodeCursor = n →
      FreeAhead dev.bs fs₁ (k + growCost dev.bs (fileSize dev.bs fs.disk parent) dirEntrySize) →
      Ensures ∅ (At fs₁) (appendToFile dev parent (dirEntry n fname)
        (BitVec.ofNat 32 dirEntrySize)) fun _ m => Q n fs₁ m.fs) :
    Ensures ∅ (At fs) (touchCommon dev parent fname f_mode f_uid f_gid) fun r m =>
      (r ≠ 0 ∧ At fs m ∧ ((Minix3.getInode dev.bs fs.disk parent).isDirectory = true →
        r = 4 ∧ ∃ lookup, L lookup ∧ lookup.retval ≠ MX3_RETURN_CODE_NOT_FOUND)) ∨
      (r = 0 ∧ (∃ lookup, L lookup ∧ lookup.retval = MX3_RETURN_CODE_NOT_FOUND) ∧
        ∃ n fs₁, FreeInode dev.bs fs.disk n ∧
          Created dev.bs fs.disk fs₁.disk n (newInode f_mode f_uid f_gid) ∧
          fs₁.inodeCursor = n ∧ Q n fs₁ m.fs) := by
  obtain ⟨n, hget, hn⟩ := inode_available hcan.stays hcan.inode
  apply Ensures.allocate
  intro dir hdir
  apply (getInode_ensures parent).step
  dsimp only
  rw [if_neg (not_not.mpr rfl)]
  apply Ensures.ite
  · intro hno
    apply Ensures.release hdir
    exact ensures_pure _ fun m hm => Or.inl ⟨by decide, hm, fun hyes => absurd hno (by simp [hyes])⟩
  intro _
  apply Ensures.allocate
  intro pn hpn
  apply hlookup.bind
  intro lookup
  apply Ensures.given
  intro hL
  apply Ensures.release hpn
  apply Ensures.ite
  · intro hfound
    exact ensures_pure _ fun m hm => Or.inl ⟨by decide, hm, fun _ => ⟨rfl, lookup, hL, hfound⟩⟩
  intro hunbound
  apply (getAvailableInode_ensures hget).step
  apply (writing_ensures (setInodeAs_computes n true)).bind
  intro _
  apply Ensures.allocate
  intro new_inode hnew
  apply Ensures.allocate
  intro new_dir_entry hentry
  apply (putInode_ensures n _).bind
  intro _
  -- the entry goes into the parent directory, which nothing has changed
  obtain ⟨fs₁, hfs₁⟩ : ∃ fs₁ : Fs, fs₁ = ⟨Minix3.putInode dev.bs
    (Minix3.setInodeOccupied dev.bs fs.disk n) n (newInode f_mode f_uid f_gid),
      fs.zoneCursor, n⟩ := ⟨_, rfl⟩
  have hcreated : Created dev.bs fs.disk fs₁.disk n (newInode f_mode f_uid f_gid) := by
    rw [hfs₁]
    exact hc.create hn fun _ => rfl
  have hcursor : fs₁.inodeCursor = n := by rw [hfs₁]
  have hfree₁ : FreeAhead dev.bs fs₁
      (k + growCost dev.bs (fileSize dev.bs fs.disk parent) dirEntrySize) := by
    have hfree := hcan.zones.congr hcreated.map
    rw [hfs₁] at hfree ⊢
    exact hfree
  have hput := happend n fs₁ hn hcreated hcursor hfree₁
  rw [hfs₁] at hput
  apply hput.bind
  intro r
  have hown : (insert dir (insert new_inode ∅) : Finset ℕ) ⊆
      insert new_dir_entry (insert new_inode (insert dir ∅)) := by
    rw [Finset.insert_comm dir]
    exact Finset.subset_insert _ _
  refine Ensures.mono ?_ hown
  apply Ensures.release
  · rw [Finset.mem_insert, not_or]
    exact ⟨fun heq => hnew (heq ▸ Finset.mem_insert_self _ _), Finset.notMem_empty dir⟩
  apply Ensures.release (Finset.notMem_empty new_inode)
  apply ensures_pure
  intro m hQ
  rw [← hfs₁] at hQ
  exact Or.inr ⟨rfl, ⟨lookup, hL, not_not.mp hunbound⟩, n, fs₁, hn, hcreated, hcursor, hQ⟩

theorem append_created {n : Word} {fs₁ : Fs} {inode : Inode} (fname : CString)
    (hcan : CanTouch dev.bs fs parent k)
    (hcreated : Created dev.bs fs.disk fs₁.disk n inode)
    (hfree : FreeAhead dev.bs fs₁
      (k + growCost dev.bs (fileSize dev.bs fs.disk parent) dirEntrySize)) :
    Ensures ∅ (At fs₁) (appendToFile dev parent (dirEntry n fname)
      (BitVec.ofNat 32 dirEntrySize)) fun r m => r = 0 ∧
        AppendedTo dev.bs fs₁ parent (listed (dirEntry n fname) dirEntrySize) m.fs ∧
          FreeAhead dev.bs m.fs k := by
  obtain ⟨hsame, hkept⟩ := hcreated.other parent hcan.inUse
  apply appendToFile_sound hcreated.consistent ((hcreated.inUse parent).mpr (Or.inr hcan.inUse))
  · rw [hsame]
    exact hkept.whole hcan.whole
  · rw [hsame]
    exact hcan.room
  · rw [hsame]
    exact hfree

theorem touchReg_sound (fname : CString) (hc : Consistent dev.bs fs.disk)
    (hcan : CanTouch dev.bs fs parent k) :
    Ensures ∅ (At fs) (touchReg dev parent fname) fun r m => r = 0 →
      Touched dev.bs fs parent m.fs.inodeCursor fname m.fs ∧ FreeAhead dev.bs m.fs k := by
  have hlookup : Ensures ∅ (At fs)
      (getInodeFromName dev (Minix3.getInode dev.bs fs.disk parent) fname) fun _ => At fs :=
    getInodeFromName_ensures (ppz_pos hc.layout.toZoneLayout) _ fname
  apply (touchCommon_enters (L := fun _ => True) (Q := fun n fs₁ fs' =>
    AppendedTo dev.bs fs₁ parent (listed (dirEntry n fname) dirEntrySize) fs' ∧
      FreeAhead dev.bs fs' k) fname hc hcan (hlookup.weaken fun _ _ hm => ⟨trivial, hm⟩)
    fun n fs₁ _ hcreated _ hfree => (append_created fname hcan hcreated hfree).weaken
      fun _ _ h => h.2).weaken
  rintro r m (⟨hr, -⟩ | ⟨-, -, n, fs₁, hn, hcreated, hcursor, ha, hfree⟩) hzero
  · exact absurd hzero hr
  · have htouched := touched hc hn (fun _ => rfl) rfl hcan.inUse hcreated hcursor ha
    rw [htouched.cursor]
    exact ⟨htouched, hfree⟩

end Touch

/-! ## A new file and what is appended -/

section Life

variable {dev : Mount} {fs : Fs} {k : ℕ} {parent m : Word} {fname : CString}
  {calls : List AppendCall} {h : Heap ℕ Machine}

theorem AppendedAll.reads (ha : AppendedAll dev.bs fs calls h.data.fs) (hm : InUse dev.bs fs.disk m)
    (hw : Whole dev.bs fs.disk (Minix3.getInode dev.bs fs.disk m)) :
    Reads dev h m (contents dev.bs fs.disk (Minix3.getInode dev.bs fs.disk m) ++
      appended m calls) := by
  obtain ⟨hw', hcontents⟩ := ha.file m hm hw
  rw [← hcontents]
  exact readFile_sound (ha.consistent.sound ((ha.inUse m).mpr hm) hw') rfl

/-- A file that `minix3_touch_reg` creates in a directory without holes, while the search for its
inode stays in the table: after any calls of `minix3_append_to_file` on it and on other files
without holes it has the bytes of its calls, and every other file those that it had and the bytes
of its own. -/
theorem new_file_reads (dev : Mount) (parent : Word) (fname : CString) (h : Heap ℕ Machine) (k : ℕ)
    (hc : Consistent dev.bs h.data.fs.disk) (hcan : CanTouch dev.bs h.data.fs parent k) :
    ∃ r h₁, touchReg dev parent fname h = .ok (r, h₁) ∧ (r = 0 →
      ∃ n, Touched dev.bs h.data.fs parent n fname h₁.data.fs ∧
        ∀ calls, Fits dev.bs h₁.data.fs.disk calls →
          callsCost dev.bs (fileSize dev.bs h₁.data.fs.disk) calls ≤ k →
          ∃ h₂, appendAll dev calls h₁ = .ok ((), h₂) ∧ Reads dev h₂ n (appended n calls) ∧
            ∀ m, InUse dev.bs h.data.fs.disk m →
              Whole dev.bs h.data.fs.disk (Minix3.getInode dev.bs h.data.fs.disk m) →
              ∃ bytes, Reads dev h₁ m bytes ∧ Reads dev h₂ m (bytes ++ appended m calls)) := by
  obtain ⟨r, h₁, hrun, -, hpost⟩ := touchReg_sound fname hc hcan h
    (Finset.empty_subset _) rfl
  refine ⟨r, h₁, hrun, fun hr => ?_⟩
  obtain ⟨ht, hfree⟩ := hpost hr
  refine ⟨_, ht, fun calls hfits hcost => ?_⟩
  obtain ⟨_, h₂, hall, -, ha, -⟩ := appendAll_sound (k := 0) ht.consistent hfits
    (hfree.mono (by omega)) h₁ (Finset.empty_subset _) rfl
  refine ⟨h₂, hall, ?_, fun m hm hw => ?_⟩
  · have hreads := ha.reads ((ht.inUse _).mpr (Or.inl rfl)) ht.whole
    rw [ht.empty] at hreads
    exact hreads
  · have hm₁ := (ht.inUse m).mpr (Or.inr hm)
    have hw₁ := (ht.file m hm hw).1
    exact ⟨_, readFile_sound (ht.consistent.sound hm₁ hw₁) rfl, ha.reads hm₁ hw₁⟩

end Life

/-! ## A device with a root directory -/

section Device

/-- 16 inodes and eight zones from zone 5 on. The root directory has `.` and `..` in zone 5; the
other inodes are zero, and all in use if the table is `full`. -/
def rootDevice (full : Bool) : Mem := fun x =>
  if x = 1024 then 16 else if x = 1030 then 1 else if x = 1032 then 1 else if x = 1034 then 5
  else if x = 1044 then 8
  else if x = 2048 then if full then 0xff else 1
  else if x = 2049 then if full then 0xff else 0
  else if x = 3072 then 1
  else if x = 4097 then 0x40 else if x = 4104 then 128 else if x = 4120 then 5
  else if x = 5120 then 1 else if x = 5124 then 0x2e
  else if x = 5184 then 1 else if x = 5188 then 0x2e else if x = 5189 then 0x2e
  else 0

def rootHeap (full : Bool) : Heap ℕ Machine := ⟨∅, ⟨⟨rootDevice full, 0, 1⟩, fun _ _ => 0⟩⟩

def fileName : CString := ⟨[0x66], by decide⟩

variable (full : Bool)

theorem root_layout : ImageLayout 1024 (rootDevice full) := by
  cases full <;> exact ⟨⟨by decide, by decide, by decide, by decide, by decide⟩, by decide,
    by decide, by decide, by decide⟩

theorem root_zones (i : Fin 10) :
    (Minix3.getInode 1024 (rootDevice full) 1).zones i = if i = 0 then 5 else 0 := by
  revert full i
  decide +kernel

theorem root_others : ∀ k : Fin 17, 2 ≤ k → ∀ i : Fin 10,
    (Minix3.getInode 1024 (rootDevice full) (BitVec.ofNat 32 k)).zones i = 0 := by
  revert full
  decide +kernel

theorem other_empty {n : Word} (hn : InTable (rootDevice full) n) (h1 : n ≠ 1) (i : Fin 10) :
    (Minix3.getInode 1024 (rootDevice full) n).zones i = 0 := by
  have hpos := hn.pred.2
  have hle : n.toNat ≤ 16 := hn.2.trans_eq (by cases full <;> rfl)
  have hne : n.toNat ≠ 1 := fun heq => h1 (BitVec.eq_of_toNat_eq heq)
  have hzones := root_others full ⟨n.toNat, by omega⟩
    (by rw [Fin.le_def]; change 2 ≤ n.toNat; omega) i
  rwa [BitVec.ofNat_toNat, BitVec.setWidth_eq] at hzones

theorem root_node {n : Node}
    (hz : nodeZone 1024 (rootDevice full) (Minix3.getInode 1024 (rootDevice full) 1) n ≠ 0) :
    n = .data 0 :=
  single_node (fun i hi => (root_zones full i).trans (if_neg hi)) hz

theorem root_distinct : DistinctZones 1024 (rootDevice full)
    (Minix3.getInode 1024 (rootDevice full) 1) := by
  intro m n _ _ hz he
  have hn : n = .data 0 := root_node full (he ▸ hz)
  exact (root_node full hz).trans hn.symm

theorem root_zone : nodeZone 1024 (rootDevice full)
    (Minix3.getInode 1024 (rootDevice full) 1) (.data 0) = 5 := root_zones full 0

theorem root_marked : MarkedZones 1024 (rootDevice full)
    (Minix3.getInode 1024 (rootDevice full) 1) := by
  intro n _ hz
  rw [root_node full hz, root_zone]
  clear hz
  revert full
  unfold Marked
  decide

theorem root_whole : Whole 1024 (rootDevice full)
    (Minix3.getInode 1024 (rootDevice full) 1) := by
  have hsize : (Minix3.getInode 1024 (rootDevice full) 1).size.toNat = 128 := by
    revert full
    decide
  constructor
  · intro j _
    rw [hsize]
    constructor
    · intro hz
      have hj : Node.data j = .data 0 := root_node full hz
      cases hj
      decide
    · intro hj
      obtain rfl : j = 0 := by omega
      exact (root_zone full).trans_ne (by decide)
  · rw [hsize]
    decide

theorem root_consistent : Consistent 1024 (rootDevice full) := by
  refine ⟨root_layout full, fun n hn => ?_, fun n hn => ?_, fun m n hm hn hne => ?_⟩
  · by_cases h1 : n = 1
    · exact h1 ▸ root_distinct full
    · exact empty_distinct (other_empty full hn.1 h1)
  · by_cases h1 : n = 1
    · exact h1 ▸ root_marked full
    · exact empty_marked (other_empty full hn.1 h1)
  · by_cases h1 : m = 1
    · exact (empty_apart (other_empty full hn.1 fun h => hne (h1.trans h.symm)) _).symm
    · exact empty_apart (other_empty full hm.1 h1) _

/-- The seven zones behind that of the root directory. -/
theorem root_free : FreeAhead 1024 (rootHeap full).data.fs 7 := by
  refine ⟨by revert full; decide, {6, 7, 8, 9, 10, 11, 12}, by decide, fun z hz => ?_⟩
  simp only [Finset.mem_insert, Finset.mem_singleton] at hz
  unfold FreeZone
  revert full
  rcases hz with rfl | rfl | rfl | rfl | rfl | rfl | rfl <;> decide

end Device

/-- What a call returns, and the heap behind it. -/
def outcome {α : Type} (op : Op α) (h : Heap ℕ Machine) : Option α := (op h).toOption.map Prod.fst

def after {α : Type} (op : Op α) (h : Heap ℕ Machine) : Heap ℕ Machine :=
  (op h).toOption.elim h Prod.snd

theorem outcome_some {α : Type} {op : Op α} {h : Heap ℕ Machine} {a : α}
    (ha : outcome op h = some a) : op h = .ok (a, after op h) := by
  unfold outcome at ha
  unfold after
  cases hop : op h with
  | error e =>
    rw [hop] at ha
    cases ha
  | ok p =>
    rw [hop] at ha
    cases ha
    rfl

/-- The bytes that `Reads` is about. -/
def fileBytes (dev : Mount) (inode_num : Word) (h : Heap ℕ Machine) : Option (List Byte) :=
  (outcome (readFile dev inode_num) h).bind fun p =>
    p.2.map fun file_buffer => listed file_buffer p.1.size.toNat

theorem reads_iff {dev : Mount} {n : Word} {h : Heap ℕ Machine} {bytes : List Byte} :
    Reads dev h n bytes ↔ fileBytes dev n h = some bytes := by
  constructor
  · rintro ⟨f_inode, file_buffer, h', hrun, -, rfl⟩
    simp only [fileBytes, outcome, hrun]
    rfl
  · intro hbytes
    obtain ⟨⟨f_inode, _⟩, hout, hbuffer⟩ := Option.bind_eq_some_iff.mp hbytes
    obtain ⟨file_buffer, rfl, rfl⟩ := Option.map_eq_some_iff.mp hbuffer
    exact ⟨f_inode, file_buffer, _, outcome_some hout, (length_listed _ _).symm, rfl⟩

theorem root_canTouch : CanTouch 1024 (rootHeap false).data.fs 1 7 where
  inUse := ⟨by decide, by decide⟩
  whole := root_whole false
  room := by decide
  stays := Or.inr (Or.inr ⟨2, ⟨by decide, by decide⟩, by decide⟩)
  inode := ⟨2, by decide, by decide⟩
  zones := by
    have hcost : growCost 1024 (fileSize 1024 (rootHeap false).data.fs.disk 1) dirEntrySize = 0 :=
      by decide
    rw [hcost]
    exact root_free false

/-- The call on the root directory, run. -/
theorem root_touch : outcome (touchReg smallMount 1 fileName) (rootHeap false) = some 0 := by
  decide +kernel

theorem new_file_reads_root : ∃ h₁ n h₂ bytes,
    touchReg smallMount 1 fileName (rootHeap false) = .ok (0, h₁) ∧
    appendAll smallMount [⟨n, fun _ => 0x41, 1030⟩, ⟨n, fun _ => 0x42, 3⟩] h₁ = .ok ((), h₂) ∧
    Reads smallMount h₂ n (listed (fun _ => 0x41) 1030 ++ listed (fun _ => 0x42) 3) ∧
    Reads smallMount h₁ 1 bytes ∧ Reads smallMount h₂ 1 bytes := by
  obtain ⟨r, h₁, hrun, hall⟩ := new_file_reads smallMount 1 fileName (rootHeap false) 7
    (root_consistent false) root_canTouch
  have hzero := root_touch
  rw [outcome, hrun] at hzero
  obtain rfl : r = 0 := Option.some.inj hzero
  obtain ⟨n, ht, hcalls⟩ := hall rfl
  have hne : n ≠ 1 := fun heq => ht.fresh (heq ▸ root_canTouch.inUse)
  have hsize : fileSize 1024 h₁.data.fs.disk n = 0 := by
    have hlen := congrArg List.length ht.empty
    rwa [length_contents] at hlen
  have hfits : Fits 1024 h₁.data.fs.disk [⟨n, fun _ => 0x41, 1030⟩, ⟨n, fun _ => 0x42, 3⟩] := by
    have hfit : InUse 1024 h₁.data.fs.disk n ∧
        Whole 1024 h₁.data.fs.disk (Minix3.getInode 1024 h₁.data.fs.disk n) ∧
        fileSize 1024 h₁.data.fs.disk n + 1033 ≤ blockStart 1024 (1 + ppz 1024) * 1024 := by
      rw [hsize]
      exact ⟨(ht.inUse n).mpr (Or.inl rfl), ht.whole, by decide⟩
    simpa [Fits, appended] using hfit
  have hcost : callsCost 1024 (fileSize 1024 h₁.data.fs.disk)
      [⟨n, fun _ => 0x41, 1030⟩, ⟨n, fun _ => 0x42, 3⟩] = growCost 1024 0 1030 +
        (growCost 1024 (0 + 1030) 3 + 0) := by
    simp only [callsCost, Function.update_self, hsize]
    rfl
  obtain ⟨h₂, happend, hreads, hothers⟩ := hcalls _ hfits (hcost.trans_le (by decide))
  obtain ⟨bytes, hbefore, hafter⟩ := hothers 1 root_canTouch.inUse root_canTouch.whole
  refine ⟨h₁, n, h₂, bytes, hrun, happend, ?_, hbefore, ?_⟩
  · rw [appended_cons, appended_cons, if_pos rfl, if_pos rfl] at hreads
    exact hreads
  · rw [appended_cons, appended_cons, if_neg hne, if_neg hne] at hafter
    simpa [appended] using hafter

/-- With all inodes in use the new file is inode 17, whose record lies in the zone of the root
directory: a byte that is appended to it changes the directory. -/
theorem new_file_overwrites : Consistent 1024 (rootDevice true) ∧
    InUse 1024 (rootDevice true) 1 ∧
    Whole 1024 (rootDevice true) (Minix3.getInode 1024 (rootDevice true) 1) ∧
    FreeAhead 1024 (rootHeap true).data.fs 7 ∧ ∃ h₁ h₂ bytes bytes',
    touchReg smallMount 1 fileName (rootHeap true) = .ok (0, h₁) ∧
    appendToFile smallMount h₁.data.fs.inodeCursor (fun _ => 0x41) 1 h₁ = .ok (0, h₂) ∧
    Reads smallMount h₁ 1 bytes ∧ Reads smallMount h₂ 1 bytes' ∧ bytes' ≠ bytes := by
  have htouch : outcome (touchReg smallMount 1 fileName) (rootHeap true) = some 0 := by
    decide +kernel
  have hcursor : (after (touchReg smallMount 1 fileName)
      (rootHeap true)).data.fs.inodeCursor = 17 := by decide +kernel
  have happend : outcome (appendToFile smallMount 17 (fun _ => 0x41) 1)
      (after (touchReg smallMount 1 fileName) (rootHeap true)) = some 0 := by decide +kernel
  have hbytes : ∃ bytes bytes',
      fileBytes smallMount 1 (after (touchReg smallMount 1 fileName) (rootHeap true))
        = some bytes ∧
      fileBytes smallMount 1 (after (appendToFile smallMount 17 (fun _ => 0x41) 1)
        (after (touchReg smallMount 1 fileName) (rootHeap true))) = some bytes' ∧
      bytes' ≠ bytes := by
    have hchanged : (fileBytes smallMount 1 (after (touchReg smallMount 1 fileName)
          (rootHeap true))).map (fun bytes => bytes.getD 8 0) = some 0 ∧
        (fileBytes smallMount 1 (after (appendToFile smallMount 17 (fun _ => 0x41) 1)
          (after (touchReg smallMount 1 fileName) (rootHeap true)))).map
            (fun bytes => bytes.getD 8 0) = some 1 := by decide +kernel
    obtain ⟨bytes, hbefore, h0⟩ := Option.map_eq_some_iff.mp hchanged.1
    obtain ⟨bytes', hafter, h1⟩ := Option.map_eq_some_iff.mp hchanged.2
    refine ⟨bytes, bytes', hbefore, hafter, ?_⟩
    rintro rfl
    rw [h0] at h1
    exact absurd h1 (by decide)
  obtain ⟨bytes, bytes', hbefore, hafter, hne⟩ := hbytes
  refine ⟨root_consistent true, ⟨by decide, by decide⟩, root_whole true, root_free true, _, _,
    bytes, bytes', outcome_some htouch, ?_, reads_iff.mpr hbefore, reads_iff.mpr hafter, hne⟩
  rw [hcursor]
  exact outcome_some happend

end FileOps

end Minix3
