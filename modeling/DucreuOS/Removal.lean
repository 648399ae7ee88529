import DucreuOS.Directories

/-! # Removing a name

`minix3_rm` and `minix3_rmdir` look the name up, and what they return depends on what it is bound
to. Once they have begun to write they return 0. -/
namespace Minix3.FileOps

open ByteMemory LiveBlocks

section Ends

variable {dev : Mount} {fs : Fs} {own : Finset ℕ}

/-- From any state the call returns. -/
def Ends {α : Type} (own : Finset ℕ) (op : Op α) : Prop :=
  Ensures own (fun _ => True) op fun _ _ => True

theorem ends_of {α : Type} {op : Op α} {Q : Fs → α → Machine → Prop}
    (h : ∀ fs, Ensures own (At fs) op (Q fs)) : Ends own op := fun heap hown _ =>
  (h heap.data.fs).weaken (fun _ _ _ => trivial) heap hown rfl

theorem Ends.at {α : Type} {op : Op α} (h : Ends own op) :
    Ensures own (At fs) op fun _ _ => True := fun heap hown _ => h heap hown trivial

theorem Ends.bind {α β : Type} {op : Op α} {rest : α → Op β} (h : Ends ∅ op)
    (hrest : ∀ a, Ends own (rest a)) : Ends own (op >>= rest) :=
  Ensures.bind h hrest

theorem clearAllZones_ends (f_inode : Inode) : Ends ∅ (clearAllZones dev f_inode) := by
  apply (clearAllZones_computes f_inode).ensures
  exact fun m _ => ⟨_, _, rfl, trivial⟩

theorem clearContents_ends (child_inode : Inode) : Ends ∅ (clearContents dev child_inode) :=
  Ensures.ite (fun _ => clearAllZones_ends child_inode) fun _ => ensures_pure _ fun _ _ => trivial

theorem setInodeUnoccupied_ends (inode_num : Word) : Ends ∅ (setInodeUnoccupied dev inode_num) :=
  ends_of fun _ => writing_ensures (setInodeAs_computes inode_num false)

theorem removeEntries_ends (hppz : 0 < ppz dev.bs) (dir : Inode) (child_inode_num : Word)
    (n i : ℕ) : Ends ∅ (removeEntries dev dir child_inode_num n i) := by
  induction n generalizing i with
  | zero => exact ensures_pure _ fun _ _ => trivial
  | succ n ih =>
    apply Ends.bind (ends_of fun fs => gzbars_ensures hppz dir i)
    rintro ⟨zone_baddr, remaining_size⟩
    apply Ensures.ite
    · exact fun _ => ensures_pure _ fun _ _ => trivial
    intro _
    apply Ensures.ite
    · exact fun _ => ih (i + 1)
    intro _
    apply Ends.bind (ends_of fun fs => readDirs_ensures zone_baddr)
    intro dirs
    cases findInode dev.bs dirs child_inode_num with
    | none => exact ih (i + 1)
    | some j =>
      apply Ends.bind (ends_of fun fs => writing_ensures (blockWriteArbitrary_computes _ _ _))
      exact fun _ => ih (i + 1)

/-- The walk for the first zone ends at the first pointer. -/
theorem setZoneTo_first (inode : Inode) (target : Word) :
    Ensures ∅ (At fs) (setZoneTo dev inode 0 target) fun p m =>
      p = (inode.setZone 0 target, target) ∧ At fs m := by
  have hwalker : Ensures ∅ (At fs) (zoneWalker dev inode 0 (some target)) fun p m =>
      p = (⟨fs, inode.setZone 0 target, 0, inode.size.toNat⟩, target) ∧ At fs m := by
    apply (zoneWalker_computes inode 0 (some target)).ensures
    rintro m rfl
    exact ⟨_, _, rfl, rfl, rfl⟩
  apply hwalker.step
  exact ensures_pure _ fun m hm => ⟨rfl, hm⟩

theorem clearZone_first (inode : Inode) :
    Ensures ∅ (At fs) (clearZone dev inode 0) fun node m =>
      node = inode.setZone 0 0 ∧ At (fs.withDisk
        (Minix3.setZoneUnoccupied dev.bs fs.disk (fileZone dev.bs fs.disk inode 0))) m := by
  have hget : Ensures ∅ (At fs) (getZone dev inode 0) fun zone m =>
      zone = fileZone dev.bs fs.disk inode 0 ∧ At fs m := by
    have hwalker : Ensures ∅ (At fs) (zoneWalker dev inode 0 none) fun p m =>
        p = (⟨fs, inode, 0, inode.size.toNat⟩, fileZone dev.bs fs.disk inode 0) ∧ At fs m := by
      apply (zoneWalker_computes inode 0 none).ensures
      rintro m rfl
      exact ⟨_, _, rfl, rfl, rfl⟩
    apply hwalker.step
    exact ensures_pure _ fun m hm => ⟨rfl, hm⟩
  apply hget.step
  apply (writing_ensures (setZoneAs_computes _ false)).bind
  intro _
  apply (setZoneTo_first inode 0).step
  exact ensures_pure _ fun m hm => ⟨rfl, hm⟩

end Ends

/-! ## What a name is bound to -/

section Bound

variable {dev : Mount} {fs : Fs} {bs : ℕ} {disk : Mem} {parent n : Word} {name : CString}
  {lookup : Lookup}

def isDirectory (bs : ℕ) (disk : Mem) (n : Word) : Bool := (Minix3.getInode bs disk n).isDirectory

/-- Entry for `n` in directory `parent`. -/
def BoundTo (bs : ℕ) (disk : Mem) (parent : Word) (name : CString) (n : Word) : Prop :=
  Binds bs disk (Minix3.getInode bs disk parent) name n

def Bound (bs : ℕ) (disk : Mem) (parent : Word) (name : CString) : Prop :=
  ∃ n, BoundTo bs disk parent name n

def BoundToFile (bs : ℕ) (disk : Mem) (parent : Word) (name : CString) : Prop :=
  ∃ n, BoundTo bs disk parent name n ∧ isDirectory bs disk n = false

def BoundToDirectory (bs : ℕ) (disk : Mem) (parent : Word) (name : CString) : Prop :=
  ∃ n, BoundTo bs disk parent name n ∧ isDirectory bs disk n = true

/-- The directory has an entry in use that is neither `.` nor `..`. -/
def HasOthers (bs : ℕ) (disk : Mem) (dir : Inode) : Prop :=
  ∃ j < entries dir, entryInode (fileMem bs disk dir) j ≠ 0 ∧
    ¬ Named (fileMem bs disk dir) dot j ∧ ¬ Named (fileMem bs disk dir) dotDot j

/-- What a look-up in a directory of the tree finds. -/
inductive Classified (bs : ℕ) (disk : Mem) (parent : Word) (name : CString) : Lookup → Prop
  | notFound : ¬ Bound bs disk parent name → Classified bs disk parent name .notFound
  | file {n : Word} : BoundTo bs disk parent name n → isDirectory bs disk n = false →
    Classified bs disk parent name (.file n (Minix3.getInode bs disk n))
  | directory {n : Word} : BoundTo bs disk parent name n → isDirectory bs disk n = true →
    Classified bs disk parent name (.directory n (Minix3.getInode bs disk n))

theorem Finds.classified (h : Finds bs disk (Minix3.getInode bs disk parent) name lookup) :
    Classified bs disk parent name lookup := by
  by_cases hbound : Bound bs disk parent name
  · obtain ⟨n, hn⟩ := hbound
    obtain rfl := h.bound n hn
    cases hdir : isDirectory bs disk n with
    | false =>
      rw [isDirectory] at hdir
      simp only [Lookup.ofFound, hdir, Bool.not_false, if_true]
      exact .file hn hdir
    | true =>
      rw [isDirectory] at hdir
      simp only [Lookup.ofFound, hdir, Bool.not_true, Bool.false_eq_true, if_false]
      exact .directory hn hdir
  · obtain rfl := h.unbound fun n hn => hbound ⟨n, hn⟩
    exact .notFound hbound

theorem lookup_classified (ht : Tree dev.bs fs.disk) (hp : Reachable dev.bs fs.disk parent)
    (name : CString) : Ensures ∅ (At fs)
      (getInodeFromName dev (Minix3.getInode dev.bs fs.disk parent) name) fun lookup m =>
        Classified dev.bs fs.disk parent name lookup ∧ At fs m :=
  (getInodeFromName_sound (ht.directory parent hp) (ht.reachable hp).2 name).weaken
    fun _ _ h => ⟨h.1.classified, h.2⟩

theorem onParent_sound {rest : ℕ → Inode → Op ℕ} {Q : ℕ → Machine → Prop}
    (hdir : isDirectory dev.bs fs.disk parent = true)
    (h : ∀ dir, Ensures (insert dir ∅) (At fs)
      (rest dir (Minix3.getInode dev.bs fs.disk parent)) Q) :
    Ensures ∅ (At fs) (onParent dev parent rest) Q := by
  rw [isDirectory] at hdir
  apply Ensures.allocate
  intro dir _
  apply (getInode_ensures parent).step
  simp only [ne_eq, not_true, if_false, hdir, Bool.not_true, Bool.false_eq_true]
  exact h dir

end Bound

/-! ## Removing a file -/

section Calls

variable {dev : Mount} {fs : Fs} {parent n : Word} {name : CString}

/-- `minix3_rm` removes what is bound to a file; anything else it takes for a directory. -/
theorem rm_returns (ht : Tree dev.bs fs.disk) (hp : Reachable dev.bs fs.disk parent)
    (name : CString) : Ensures ∅ (At fs) (rm dev parent name) fun r m =>
      (r = 0 ∧ BoundToFile dev.bs fs.disk parent name) ∨
      (r = MX3_RETURN_CODE_IS_DIRECTORY ∧ ¬ BoundToFile dev.bs fs.disk parent name ∧ At fs m) := by
  have hppz := ppz_pos ht.layout.toZoneLayout
  apply onParent_sound (ht.reachable hp).2
  intro dir
  apply Ensures.allocate
  intro child_inode hchild
  apply (lookup_classified ht hp name).bind
  intro lookup
  apply Ensures.given
  intro hlookup
  have hrefuse (hno : ¬ BoundToFile dev.bs fs.disk parent name) :
      Ensures (insert child_inode (insert dir ∅)) (At fs) (do
        kfree dir
        kfree child_inode
        pure MX3_RETURN_CODE_IS_DIRECTORY) fun r m =>
      (r = 0 ∧ BoundToFile dev.bs fs.disk parent name) ∨
      (r = MX3_RETURN_CODE_IS_DIRECTORY ∧ ¬ BoundToFile dev.bs fs.disk parent name ∧
        At fs m) := by
    rw [Finset.insert_comm]
    apply Ensures.release
    · rw [Finset.mem_insert, not_or]
      exact ⟨fun heq => hchild (heq ▸ Finset.mem_insert_self _ _), Finset.notMem_empty dir⟩
    apply Ensures.release (Finset.notMem_empty child_inode)
    exact ensures_pure _ fun m hm => Or.inr ⟨rfl, hno, hm⟩
  cases hlookup with
  | notFound hno => exact hrefuse fun ⟨n, hn, _⟩ => hno ⟨n, hn⟩
  | directory hn hdir =>
    apply hrefuse
    rintro ⟨k, hk, hfile⟩
    rw [(ht.directory parent hp).binds_unique hk hn, hdir] at hfile
    cases hfile
  | @file n hn hfile =>
    apply (clearContents_ends _).at.bind
    intro _
    apply Ensures.bind (setInodeUnoccupied_ends n)
    intro _
    apply Ensures.release hchild
    apply Ensures.allocate
    intro zone hzone
    apply Ensures.bind (removeEntries_ends hppz _ n _ 0)
    intro _
    apply Ensures.release hzone
    apply Ensures.release (Finset.notMem_empty dir)
    exact ensures_pure _ fun m _ => Or.inl ⟨rfl, n, hn, hfile⟩

/-! ## Removing a directory -/

theorem Classified.retval_zero {lookup : Lookup} {bs : ℕ} {disk : Mem} (ht : Tree bs disk)
    (hp : Reachable bs disk parent) (h : Classified bs disk parent name lookup) :
    lookup.retval = 0 ↔ BoundToDirectory bs disk parent name := by
  cases h with
  | notFound hno => exact ⟨fun h => absurd h (by decide), fun ⟨n, hn, _⟩ => absurd ⟨n, hn⟩ hno⟩
  | directory hn hdir => exact ⟨fun _ => ⟨_, hn, hdir⟩, fun _ => rfl⟩
  | file hn hfile =>
    refine ⟨fun h => absurd h (by simp [Lookup.retval, MX3_RETURN_CODE_NOT_DIRECTORY]), ?_⟩
    rintro ⟨k, hk, hdir⟩
    rw [(ht.directory parent hp).binds_unique hk hn, hfile] at hdir
    cases hdir

/-- The child passes the checks: two entries in one zone, and `.` among them. -/
structure Removable (bs : ℕ) (disk : Mem) (n : Word) : Prop where
  notRoot : n ≠ 1
  size : (Minix3.getInode bs disk n).size.toNat = 2 * dirEntrySize
  block : 2 * dirEntrySize ≤ bs
  dot : BoundToDirectory bs disk n dot

theorem rmdirCheck_sound (ht : Tree dev.bs fs.disk) (hn : Reachable dev.bs fs.disk n) :
    Ensures ∅ (At fs) (rmdirCheck dev (Minix3.getInode dev.bs fs.disk n)) fun r m =>
      (r = 0 ∨ r = MX3_RETURN_CODE_NOT_EMPTY ∨ r = MX3_RETURN_CODE_UNKNOWN_ERROR) ∧
      (r = 0 ↔ (Minix3.getInode dev.bs fs.disk n).size.toNat = 2 * dirEntrySize ∧
        BoundToDirectory dev.bs fs.disk n dot) ∧ At fs m := by
  apply Ensures.ite
  · intro hsize
    apply ensures_pure
    exact fun m hm => ⟨Or.inr (Or.inl rfl),
      iff_of_false (by decide) fun h => hsize h.1, hm⟩
  intro hsize
  apply Ensures.allocate
  intro pn hpn
  apply (lookup_classified ht hn dot).bind
  intro dotLookup
  apply Ensures.given
  intro hdot
  apply (lookup_classified ht hn dot).bind
  intro dotDotLookup
  apply Ensures.given
  intro hdotDot
  apply Ensures.release hpn
  have hboth : dotLookup.retval ≠ 0 ∨ dotDotLookup.retval ≠ 0 ↔
      ¬ BoundToDirectory dev.bs fs.disk n dot := by
    rw [ne_eq, ne_eq, hdot.retval_zero ht hn, hdotDot.retval_zero ht hn, or_self]
  apply Ensures.ite
  · intro hno
    exact ensures_pure _ fun m hm => ⟨Or.inr (Or.inr rfl),
      iff_of_false (by decide) fun h => hboth.mp hno h.2, hm⟩
  · intro hbound
    exact ensures_pure _ fun m hm => ⟨Or.inl rfl,
      iff_of_true rfl ⟨not_not.mp hsize, not_not.mp fun hno => hbound (hboth.mpr hno)⟩, hm⟩

/-- What `minix3_rmdir` returns; except for 0 nothing has been written. -/
inductive RmdirReturns (bs : ℕ) (fs : Fs) (parent : Word) (name : CString) : ℕ → Machine → Prop
  | notFound {m : Machine} : ¬ Bound bs fs.disk parent name → At fs m →
    RmdirReturns bs fs parent name MX3_RETURN_CODE_NOT_FOUND m
  | file {m : Machine} : BoundToFile bs fs.disk parent name → At fs m →
    RmdirReturns bs fs parent name MX3_RETURN_CODE_NOT_DIRECTORY m
  | refused {n : Word} {r : ℕ} {m : Machine} : BoundTo bs fs.disk parent name n →
    isDirectory bs fs.disk n = true → ¬ Removable bs fs.disk n →
    r = MX3_RETURN_CODE_NOT_EMPTY ∨ r = MX3_RETURN_CODE_UNKNOWN_ERROR → At fs m →
    RmdirReturns bs fs parent name r m
  | removed {n : Word} {m : Machine} : BoundTo bs fs.disk parent name n →
    isDirectory bs fs.disk n = true → Removable bs fs.disk n → RmdirReturns bs fs parent name 0 m

theorem rmdir_returns (ht : Tree dev.bs fs.disk) (hp : Reachable dev.bs fs.disk parent)
    (name : CString) : Ensures ∅ (At fs) (rmdir dev parent name)
      (RmdirReturns dev.bs fs parent name) := by
  have hppz := ppz_pos ht.layout.toZoneLayout
  apply onParent_sound (ht.reachable hp).2
  intro dir
  apply Ensures.allocate
  intro child_inode hchild
  have hdir : dir ∉ (insert child_inode ∅ : Finset ℕ) := by
    rw [Finset.mem_insert, not_or]
    exact ⟨fun heq => hchild (heq ▸ Finset.mem_insert_self _ _), Finset.notMem_empty dir⟩
  apply (lookup_classified ht hp name).bind
  intro lookup
  apply Ensures.given
  intro hlookup
  -- the way out of a call that has not written
  have hleave (r : ℕ) (hr : ∀ m, At fs m → RmdirReturns dev.bs fs parent name r m) :
      Ensures (insert child_inode (insert dir ∅)) (At fs) (do
        kfree dir
        kfree child_inode
        pure r) (RmdirReturns dev.bs fs parent name) := by
    rw [Finset.insert_comm]
    apply Ensures.release hdir
    apply Ensures.release (Finset.notMem_empty child_inode)
    exact ensures_pure _ hr
  cases hlookup with
  | notFound hno => exact hleave _ fun m hm => .notFound hno hm
  | file hn hfile => exact hleave _ fun m hm => .file ⟨_, hn, hfile⟩ hm
  | @directory n hn hchildDir =>
    have hreach : Reachable dev.bs fs.disk n := .step hp hn hchildDir
    have hsound := (ht.directory n hreach).sound
    apply (rmdirCheck_sound ht hreach).bind
    intro retval
    apply Ensures.given
    intro hcodes
    apply Ensures.given
    intro hzero
    apply Ensures.ite
    · intro hfailed
      apply hleave
      exact fun m hm => .refused hn hchildDir
        (fun h => hfailed (hzero.mpr ⟨h.size, h.dot⟩)) (hcodes.resolve_left hfailed) hm
    intro hpassed
    obtain ⟨hsize, hdot⟩ := hzero.mp (not_not.mp hpassed)
    apply Ensures.ite
    · intro hroot
      apply hleave
      exact fun m hm => .refused hn hchildDir (fun h => h.notRoot hroot) (Or.inr rfl) hm
    intro hroot
    apply (getLastFileZone_sound hsound).bind
    intro child_data_zone
    apply Ensures.given
    intro hlast
    rw [hsize] at hlast
    have hfirst : child_data_zone = 0 ↔ 2 * dirEntrySize ≤ dev.bs := by
      rw [← BitVec.toNat_inj, hlast]
      change (2 * dirEntrySize - 1) / dev.bs = 0 ↔ _
      rw [Nat.div_eq_zero_iff_lt hsound.layout.pos]
      simp only [dirEntrySize]
      omega
    apply Ensures.ite
    · intro hlater
      apply ensures_pure
      exact fun m hm => .refused hn hchildDir (fun h => hlater (hfirst.mpr h.block))
        (Or.inr rfl) hm
    intro honly
    have hremovable : Removable dev.bs fs.disk n :=
      ⟨hroot, hsize, hfirst.mp (not_not.mp honly), hdot⟩
    rw [not_not.mp honly]
    apply (clearZone_first _).bind
    intro node
    apply Ensures.given
    intro _
    apply (setInodeUnoccupied_ends n).at.bind
    intro _
    apply Ensures.release hchild
    apply Ensures.allocate
    intro zone hzone
    apply Ensures.bind (removeEntries_ends hppz _ n _ 0)
    intro _
    apply Ensures.release hzone
    apply Ensures.bind (ends_of fun fs => putInode_ensures parent _)
    intro _
    apply Ensures.release (Finset.notMem_empty dir)
    exact ensures_pure _ fun m _ => .removed hn hchildDir hremovable

end Calls

/-! ## The codes -/

section Codes

variable (dev : Mount) (h : Heap ℕ Machine) (parent : Word) (name : CString)

/-- `minix3_rm` tells a file, a directory and an unbound name apart, and an error has written
nothing. -/
def RmTellsApart : Prop :=
  ∃ r h', rm dev parent name h = .ok (r, h') ∧ (r ≠ 0 → h'.data.fs.disk = h.data.fs.disk) ∧
    (r = 0 ↔ BoundToFile dev.bs h.data.fs.disk parent name) ∧
    (r = MX3_RETURN_CODE_IS_DIRECTORY ↔ BoundToDirectory dev.bs h.data.fs.disk parent name) ∧
    (r = MX3_RETURN_CODE_NOT_FOUND ↔ ¬ Bound dev.bs h.data.fs.disk parent name)

/-- The same for `minix3_rmdir`, which moreover refuses a directory with other entries. -/
def RmdirTellsApart : Prop :=
  ∃ r h', rmdir dev parent name h = .ok (r, h') ∧ (r ≠ 0 → h'.data.fs.disk = h.data.fs.disk) ∧
    (r = MX3_RETURN_CODE_NOT_FOUND ↔ ¬ Bound dev.bs h.data.fs.disk parent name) ∧
    (r = MX3_RETURN_CODE_NOT_DIRECTORY ↔ BoundToFile dev.bs h.data.fs.disk parent name) ∧
    ∀ n, BoundTo dev.bs h.data.fs.disk parent name n →
      isDirectory dev.bs h.data.fs.disk n = true →
      HasOthers dev.bs h.data.fs.disk (Minix3.getInode dev.bs h.data.fs.disk n) → r ≠ 0

end Codes

section Apart

variable {dev : Mount} {h : Heap ℕ Machine} {bs : ℕ} {disk : Mem} {parent n : Word}
  {name : CString}

/-- A name is not bound to a file and to a directory. -/
theorem not_file_and_directory (ht : Tree bs disk) (hp : Reachable bs disk parent)
    (hfile : BoundToFile bs disk parent name) : ¬ BoundToDirectory bs disk parent name := by
  rintro ⟨k, hk, hdir⟩
  obtain ⟨n, hn, hno⟩ := hfile
  rw [(ht.directory parent hp).binds_unique hk hn, hno] at hdir
  cases hdir

theorem bound_file_or_directory (hb : Bound bs disk parent name) :
    BoundToFile bs disk parent name ∨ BoundToDirectory bs disk parent name := by
  obtain ⟨n, hn⟩ := hb
  cases hdir : isDirectory bs disk n with
  | false => exact Or.inl ⟨n, hn, hdir⟩
  | true => exact Or.inr ⟨n, hn, hdir⟩

theorem rm_tells_apart_iff (ht : Tree dev.bs h.data.fs.disk)
    (hp : Reachable dev.bs h.data.fs.disk parent) :
    RmTellsApart dev h parent name ↔ Bound dev.bs h.data.fs.disk parent name := by
  obtain ⟨r, h', hrun, -, hcase⟩ := rm_returns ht hp name h (Finset.empty_subset _) rfl
  constructor
  · rintro ⟨r', h'', hrun', -, hfile, -, hnone⟩
    rw [hrun] at hrun'
    cases hrun'
    by_contra hno
    rcases hcase with ⟨-, n, hn, -⟩ | ⟨rfl, -, -⟩
    · exact hno ⟨n, hn⟩
    · exact absurd (hnone.mpr hno) (by decide)
  · intro hb
    refine ⟨r, h', hrun, ?_⟩
    rcases hcase with ⟨rfl, hfile⟩ | ⟨rfl, hno, hm⟩
    · exact ⟨fun hr => absurd rfl hr, iff_of_true rfl hfile,
        iff_of_false (by decide) (not_file_and_directory ht hp hfile),
        iff_of_false (by decide) (not_not_intro hb)⟩
    · exact ⟨fun _ => congrArg Fs.disk hm, iff_of_false (by decide) hno,
        iff_of_true rfl ((bound_file_or_directory hb).resolve_left hno),
        iff_of_false (by decide) (not_not_intro hb)⟩

theorem rmdir_tells_apart_iff (ht : Tree dev.bs h.data.fs.disk)
    (hp : Reachable dev.bs h.data.fs.disk parent) :
    RmdirTellsApart dev h parent name ↔ ∀ n, BoundTo dev.bs h.data.fs.disk parent name n →
      isDirectory dev.bs h.data.fs.disk n = true → Removable dev.bs h.data.fs.disk n →
      ¬ HasOthers dev.bs h.data.fs.disk (Minix3.getInode dev.bs h.data.fs.disk n) := by
  obtain ⟨r, h', hrun, -, hcase⟩ := rmdir_returns ht hp name h (Finset.empty_subset _) rfl
  have hunique {k l : Word} (hk : BoundTo dev.bs h.data.fs.disk parent name k)
      (hl : BoundTo dev.bs h.data.fs.disk parent name l) : k = l :=
    (ht.directory parent hp).binds_unique hk hl
  have hnotFile {n : Word} (hn : BoundTo dev.bs h.data.fs.disk parent name n)
      (hdir : isDirectory dev.bs h.data.fs.disk n = true) :
      ¬ BoundToFile dev.bs h.data.fs.disk parent name := fun hfile =>
    not_file_and_directory ht hp hfile ⟨n, hn, hdir⟩
  constructor
  · rintro ⟨r', h'', hrun', -, -, -, hothers⟩ n hn hdir hremovable hhas
    rw [hrun] at hrun'
    cases hrun'
    have hne := hothers n hn hdir hhas
    cases hcase with
    | notFound hno => exact hno ⟨n, hn⟩
    | file hfile => exact hnotFile hn hdir hfile
    | refused hk _ hrefused => exact hrefused (hunique hn hk ▸ hremovable)
    | removed => exact hne rfl
  · intro hcond
    refine ⟨r, h', hrun, ?_⟩
    cases hcase with
    | notFound hno hm =>
      exact ⟨fun _ => congrArg Fs.disk hm, iff_of_true rfl hno,
        iff_of_false (by decide) fun ⟨n, hn, _⟩ => hno ⟨n, hn⟩, fun _ _ _ _ => by decide⟩
    | file hfile hm =>
      obtain ⟨n, hn, hno⟩ := hfile
      exact ⟨fun _ => congrArg Fs.disk hm, iff_of_false (by decide) (not_not_intro ⟨n, hn⟩),
        iff_of_true rfl ⟨n, hn, hno⟩, fun _ _ _ _ => by decide⟩
    | @refused n r m hn hdir _ hr hm =>
      have hcodes : r ≠ MX3_RETURN_CODE_NOT_FOUND ∧ r ≠ MX3_RETURN_CODE_NOT_DIRECTORY ∧
          r ≠ 0 := by
        rcases hr with rfl | rfl <;> decide
      exact ⟨fun _ => congrArg Fs.disk hm,
        iff_of_false hcodes.1 (not_not_intro ⟨n, hn⟩),
        iff_of_false hcodes.2.1 (hnotFile hn hdir), fun _ _ _ _ => hcodes.2.2⟩
    | @removed n m hn hdir hremovable =>
      refine ⟨fun hr => absurd rfl hr, iff_of_false (by decide) (not_not_intro ⟨n, hn⟩),
        iff_of_false (by decide) (hnotFile hn hdir), fun k hk _ hhas => ?_⟩
      obtain rfl := hunique hk hn
      exact absurd hhas (hcond k hk hdir hremovable)

end Apart

/-- In a consistent tree both calls return the code of what the name is bound to, and an error has
written nothing, exactly if the name is bound, and not to a directory that passes the checks of
`minix3_rmdir` with an entry beside `.` and `..`. -/
theorem tells_apart_iff (dev : Mount) (h : Heap ℕ Machine) (ht : Tree dev.bs h.data.fs.disk)
    (parent : Word) (hp : Reachable dev.bs h.data.fs.disk parent) (name : CString) :
    (RmTellsApart dev h parent name ∧ RmdirTellsApart dev h parent name) ↔
    (Bound dev.bs h.data.fs.disk parent name ∧
      ∀ n, BoundTo dev.bs h.data.fs.disk parent name n →
        isDirectory dev.bs h.data.fs.disk n = true → Removable dev.bs h.data.fs.disk n →
        ¬ HasOthers dev.bs h.data.fs.disk (Minix3.getInode dev.bs h.data.fs.disk n)) :=
  and_congr (rm_tells_apart_iff ht hp) (rmdir_tells_apart_iff ht hp)

theorem root_dot : BoundTo 1024 (rootDevice false) 1 dot 1 := by
  refine ⟨0, by rw [root_entries]; decide, ⟨?_, by decide, fun o ho => ?_⟩, root_inode (by decide)⟩
  · rw [root_inode (by decide)]
    decide
  · have ho1 : o ≤ 1 := ho
    rw [root_byte (by simp only [dirEntrySize]; omega)]
    interval_cases o <;> decide

theorem tells_apart_iff_root :
    RmTellsApart smallMount (rootHeap false) 1 dot ∧
      RmdirTellsApart smallMount (rootHeap false) 1 dot := by
  refine (tells_apart_iff smallMount (rootHeap false) root_tree 1 .root dot).mpr
    ⟨⟨1, root_dot⟩, fun n hn _ hremovable _ => hremovable.notRoot ?_⟩
  exact root_directory.binds_unique hn root_dot

/-- A name that is not there is reported as a directory. -/
theorem rm_takes_unbound_for_directory : Tree 1024 (rootHeap false).data.fs.disk ∧
    Reachable 1024 (rootHeap false).data.fs.disk 1 ∧
    ¬ (RmTellsApart smallMount (rootHeap false) 1 fileName ∧
      RmdirTellsApart smallMount (rootHeap false) 1 fileName) := by
  refine ⟨root_tree, .root, fun ⟨⟨r, h', hrun, _, _, hdirectory, _⟩, _⟩ => ?_⟩
  have hcode : outcome (rm smallMount 1 fileName) (rootHeap false)
      = some MX3_RETURN_CODE_IS_DIRECTORY := by decide +kernel
  rw [outcome, hrun] at hcode
  obtain ⟨n, ⟨j, hj, hnamed, -⟩, -⟩ := hdirectory.mp (Option.some.inj hcode)
  have hj2 : j < 2 := hj.trans_eq root_entries
  have hchar := root_named hj2 hnamed (Nat.zero_le _)
  revert hchar
  clear hj hnamed
  interval_cases j <;> decide

end Minix3.FileOps
