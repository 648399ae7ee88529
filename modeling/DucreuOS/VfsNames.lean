import DucreuOS.DirectoryCalls

/-! # File names in the VFS layer

`vfs_touch` and `vfs_mkdir` with the cache of directories, for names of any length. Names pass
through arrays of 60 and 64 bytes; a write behind the end of one of them has no result. -/
namespace Vfs

open ByteMemory LiveBlocks Minix3 Minix3.FileOps

def VFS_FNAME_LENGTH : ℕ := 64

structure VInode where
  mode : BitVec 16
  uid : BitVec 16
  gid : BitVec 16

/-- `VFS_FS_UNKNOWN`, `VFS_FS_MINIX3` and `VFS_FS_OS` -/
inductive FsType
  | unknown
  | minix3
  | os
  deriving DecidableEq

/-- `vfs_directory_t`; of `children_llist` the directories, from its head on. The last three are the
addresses of `v_inode`, of `children_llist`, and of the node in the list of the parent directory. -/
structure VDirectory where
  name : CString
  whichDev : BitVec 32
  fsType : FsType
  inodeNum : Word
  vInode : Option VInode
  parent : ℕ
  children : List ℕ
  vNode : ℕ
  childrenLlist : ℕ
  listNode : ℕ

/-- The directories by their addresses. -/
abbrev Cache := ℕ → VDirectory

def VFS_RETURN_CODE_NOT_FOUND : ℕ := 0x44
def VFS_RETURN_CODE_NOT_DIRECTORY : ℕ := 0x45

/-! ## Paths -/

/-- `'/'` -/
def slash : Byte := 0x2f

theorem slash_no_nul : 0 ∉ [slash] := by decide

/-- A string that has been written to an array of `n` bytes. -/
def inArray (n : ℕ) (s : CString) : Op CString :=
  if s.chars.length < n then pure s else hang

/-- `mstrcpy` to an array of `n` bytes -/
def mstrcpy (n : ℕ) (src : CString) : Op CString := inArray n src

theorem append_slash (path : CString) : 0 ∉ path.chars ++ [slash] := by
  rw [List.mem_append, not_or]
  exact ⟨path.no_nul, by decide⟩

/-- `vfs_process_path`, in an array of `n` bytes -/
def processPath (n : ℕ) (path : CString) : Op CString :=
  if path.chars.length < 1 then pure path
  else if path.chars.getLast? ≠ some slash then
    inArray n ⟨path.chars ++ [slash], append_slash path⟩
  else pure path

/-- `vfs_path_to_minix3_path`: a path that is too long is reported, and stays. -/
def pathToMinix3Path (path : CString) : CString :=
  if path.chars.getLast? = some slash then
    ⟨path.chars.dropLast, fun h => path.no_nul (List.mem_of_mem_dropLast h)⟩
  else path

/-! ## The calls -/

section Source

variable (dev : Mount) (cache : Cache)

/-- `vdir` becomes the first child of `parent_dir`. -/
def addChild (parent_dir vdir : ℕ) (child : VDirectory) : Cache :=
  let cache := Function.update cache vdir child
  Function.update cache parent_dir
    { cache parent_dir with children := vdir :: (cache parent_dir).children }

def cachePath (parent_dir : ℕ) (path : CString) : Op (ℕ × Cache) :=
  match (cache parent_dir).fsType with
  | .minix3 => do
    let _parent_inode ← kcalloc dev
    let (_, parentNode) ← getInode dev (cache parent_dir).inodeNum
    let minix3_path ← mstrcpy MX3_NAME_LEN path
    let minix3_path := pathToMinix3Path minix3_path
    let _child_inode ← kcalloc dev
    -- `child_inode_num` is not initialised, `*child_inode` is zero
    let stack ← unknown
    let lookup ← getInodeFromName dev parentNode minix3_path
    let (child_inode_num, childNode) := lookup.found.getD (load32 stack 0, Inode.zero)
    if lookup.retval = MX3_RETURN_CODE_NOT_FOUND then pure (VFS_RETURN_CODE_NOT_FOUND, cache)
    else if lookup.retval = MX3_RETURN_CODE_NOT_DIRECTORY then
      pure (VFS_RETURN_CODE_NOT_DIRECTORY, cache)
    else do
      let vdir ← kcalloc dev
      let name ← mstrcpy VFS_FNAME_LENGTH path
      let vnode ← kcalloc dev
      let children_llist ← kcalloc dev
      let new_node ← kcalloc dev
      pure (0, addChild cache parent_dir vdir
        { cache parent_dir with
          name := name
          inodeNum := child_inode_num
          vInode := some ⟨childNode.mode, childNode.uid, childNode.gid⟩
          parent := parent_dir
          children := []
          vNode := vnode
          childrenLlist := children_llist
          listNode := new_node })
  | _ => pure (1, cache)

/-- An error of the file system is reported. -/
def vfsTouch (vdir : ℕ) (fname : CString) : Op Unit :=
  match (cache vdir).fsType with
  | .minix3 => do
    let mx3_fname ← mstrcpy MX3_NAME_LEN fname
    let _ ← touchReg dev (cache vdir).inodeNum (pathToMinix3Path mx3_fname)
    pure ()
  | _ => pure ()

/-- The end of `vfs_mkdir`, which is reached after an error, too. -/
def cacheMade (vdir : ℕ) (dirname : CString) : Op Cache := do
  let vfs_dirname ← mstrcpy MX3_NAME_LEN dirname
  let vfs_dirname ← processPath MX3_NAME_LEN vfs_dirname
  let (_, cache) ← cachePath dev cache vdir vfs_dirname
  pure cache

def vfsMkdir (vdir : ℕ) (dirname : CString) : Op Cache :=
  match (cache vdir).fsType with
  | .minix3 => do
    let mx3_dirname ← mstrcpy MX3_NAME_LEN dirname
    let _ ← mkdir dev (cache vdir).inodeNum (pathToMinix3Path mx3_dirname)
    cacheMade dev cache vdir dirname
  | _ => cacheMade dev cache vdir dirname

end Source

/-! ## What the calls are to do -/

section Claims

variable (dev : Mount) (cache : Cache) (fs : Fs) (vdir : ℕ) (name : CString)

/-- The directory has an entry for a new inode, with the name and its terminator in the 60 bytes
for it, and the look-up of the name finds the inode. -/
def Stored (disk : Mem) (parent : Word) (fs' : Fs) : Prop :=
  ∃ n, ¬ InUse dev.bs disk n ∧ InUse dev.bs fs'.disk n ∧ BoundTo dev.bs fs'.disk parent name n ∧
    Ensures ∅ (At fs') (getInodeFromName dev (Minix3.getInode dev.bs fs'.disk parent) name)
      fun lookup m => lookup.found = some (n, Minix3.getInode dev.bs fs'.disk n) ∧ At fs' m

/-- The call returns, and has left the disk unchanged or stored the name. -/
def TouchKeeps : Prop :=
  Ensures {vdir} (At fs) (vfsTouch dev cache vdir name) fun _ m =>
    m.fs.disk = fs.disk ∨
      Stored dev (pathToMinix3Path name) fs.disk (cache vdir).inodeNum m.fs

def MkdirKeeps : Prop :=
  Ensures {vdir} (At fs) (vfsMkdir dev cache vdir name) fun cache' m =>
    (m.fs.disk = fs.disk ∧ cache' = cache) ∨
      Stored dev (pathToMinix3Path name) fs.disk (cache vdir).inodeNum m.fs

/-- A directory of MINIX3 in the cache is one of a consistent device. -/
def Cached : Prop :=
  (cache vdir).fsType = .minix3 →
    Tree dev.bs fs.disk ∧ Reachable dev.bs fs.disk (cache vdir).inodeNum

/-- The name as it is typed fits in 60 bytes. -/
def TouchFits : Prop := (cache vdir).fsType = .minix3 → name.chars.length < MX3_NAME_LEN

/-- The name fits in 60 bytes with a `/` behind it, and there is no such directory. -/
structure MkdirFits : Prop where
  length : (pathToMinix3Path name).chars.length + 1 < MX3_NAME_LEN
  new : (cache vdir).fsType = .minix3 →
    ¬ BoundToDirectory dev.bs fs.disk (cache vdir).inodeNum (pathToMinix3Path name)

/-- The name exists, or there is room for it. -/
def TouchRoom : Prop :=
  (cache vdir).fsType = .minix3 →
    Bound dev.bs fs.disk (cache vdir).inodeNum (pathToMinix3Path name) ∨
      CanTouch dev.bs fs (cache vdir).inodeNum 0

def MkdirRoom : Prop :=
  (cache vdir).fsType = .minix3 →
    Bound dev.bs fs.disk (cache vdir).inodeNum (pathToMinix3Path name) ∨
      (CanTouch dev.bs fs (cache vdir).inodeNum 1 ∧ 2 * dirEntrySize ≤ dev.bs)

end Claims

/-! ## Strings -/

section Strings

variable {n : ℕ} {path : CString}

theorem inArray_fits (h : path.chars.length < n) : inArray n path = pure path := if_pos h

theorem inArray_overflows (h : ¬ path.chars.length < n) : inArray n path = hang := if_neg h

theorem pathToMinix3Path_length (path : CString) :
    (pathToMinix3Path path).chars.length ≤ path.chars.length ∧
      path.chars.length ≤ (pathToMinix3Path path).chars.length + 1 := by
  rw [pathToMinix3Path]
  split
  · simp only [List.length_dropLast]
    omega
  · omega

/-- What `processPath` makes of a path when the array has room. -/
def processed (path : CString) : CString :=
  if path.chars.length < 1 then path
  else if path.chars.getLast? ≠ some slash then ⟨path.chars ++ [slash], append_slash path⟩
  else path

/-- The two functions undo each other. -/
theorem pathToMinix3Path_processed (path : CString) :
    pathToMinix3Path (processed path) = pathToMinix3Path path := by
  rw [processed]
  split_ifs with hempty hlast
  · rfl
  · have hadded : pathToMinix3Path ⟨path.chars ++ [slash], append_slash path⟩ = path := by
      simp only [pathToMinix3Path, List.getLast?_concat, if_true, List.dropLast_concat]
    have hkept : pathToMinix3Path path = path := if_neg hlast
    rw [hadded, hkept]
  · rfl

theorem processed_length (h : (pathToMinix3Path path).chars.length + 1 < n) :
    (processed path).chars.length < n := by
  rw [← pathToMinix3Path_processed] at h
  have hle := (pathToMinix3Path_length (processed path)).2
  omega

theorem processPath_fits (h : (pathToMinix3Path path).chars.length + 1 < n) :
    processPath n path = pure (processed path) := by
  have hlen := processed_length h
  rw [processed] at hlen ⊢
  rw [processPath]
  split_ifs at hlen ⊢ with hempty hlast
  · rfl
  · exact inArray_fits hlen
  · rfl

/-- Without room for the `/`, a path that has none is written behind the end of its array. -/
theorem processPath_overflows (hn : 1 < n) (hlen : path.chars.length < n)
    (h : ¬ (pathToMinix3Path path).chars.length + 1 < n) : processPath n path = hang := by
  have hlast : path.chars.getLast? ≠ some slash := by
    intro hlast
    rw [pathToMinix3Path, if_pos hlast, List.length_dropLast] at h
    omega
  have hkept : pathToMinix3Path path = path := if_neg hlast
  rw [hkept] at h
  rw [processPath, if_neg (by omega), if_pos hlast]
  apply inArray_overflows
  rw [List.length_append, List.length_singleton]
  exact h

end Strings

/-! ## Calls that write behind an array -/

section Overflows

variable {dev : Mount} {cache : Cache} {fs : Fs} {vdir : ℕ} {name : CString}

/-- The program returns from no state. -/
def Never {α : Type} (m : Op α) : Prop := ∀ h a h', m h ≠ .ok (a, h')

theorem never_hang {α : Type} : Never (hang : Op α) := by
  rintro h a h' hrun
  cases hrun

theorem Never.first {α β : Type} {m : Op α} {k : α → Op β} (hm : Never m) : Never (m >>= k) := by
  intro h b h' hrun
  obtain ⟨a, mid, hfirst, -⟩ := bind_returns hrun
  exact hm h a mid hfirst

theorem Never.rest {α β : Type} {m : Op α} {k : α → Op β} (hk : ∀ a, Never (k a)) :
    Never (m >>= k) := by
  intro h b h' hrun
  obtain ⟨a, mid, -, hrest⟩ := bind_returns hrun
  exact hk a mid b h' hrest

theorem Never.not_ensures {α : Type} {m : Op α} {own : Finset ℕ} {Q : α → Machine → Prop}
    (hm : Never m) : ¬ Ensures own (At fs) m Q := by
  intro h
  obtain ⟨a, h', hrun, -⟩ := h ⟨own, ⟨fs, fun _ _ => 0⟩⟩ subset_rfl rfl
  exact hm _ a h' hrun

theorem never_mstrcpy {n : ℕ} (h : ¬ name.chars.length < n) : Never (mstrcpy n name) := by
  rw [mstrcpy, inArray_overflows h]
  exact never_hang

theorem never_vfsTouch (hfs : (cache vdir).fsType = .minix3)
    (h : ¬ name.chars.length < MX3_NAME_LEN) : Never (vfsTouch dev cache vdir name) := by
  simp only [vfsTouch, hfs]
  exact (never_mstrcpy h).first

theorem never_cacheMade (h : ¬ (pathToMinix3Path name).chars.length + 1 < MX3_NAME_LEN) :
    Never (cacheMade dev cache vdir name) := by
  rw [cacheMade]
  by_cases hlen : name.chars.length < MX3_NAME_LEN
  · have hcopy : mstrcpy MX3_NAME_LEN name = pure name := inArray_fits hlen
    rw [hcopy, pure_bind, processPath_overflows (by decide) hlen h]
    exact never_hang.first
  · exact (never_mstrcpy hlen).first

theorem never_vfsMkdir (h : ¬ (pathToMinix3Path name).chars.length + 1 < MX3_NAME_LEN) :
    Never (vfsMkdir dev cache vdir name) := by
  rw [vfsMkdir]
  split
  · exact Never.rest fun _ => Never.rest fun _ => never_cacheMade h
  · exact never_cacheMade h

end Overflows

/-! ## Calls that return -/

section Sound

variable {dev : Mount} {cache : Cache} {fs : Fs} {vdir : ℕ} {name : CString} {parent : Word}

theorem mstrcpy_ensures {n : ℕ} (h : name.chars.length < n) :
    Ensures ∅ (At fs) (mstrcpy n name) fun s m => s = name ∧ At fs m := by
  rw [mstrcpy, inArray_fits h]
  exact ensures_pure _ fun m hm => ⟨rfl, hm⟩

theorem processPath_ensures {n : ℕ} (h : (pathToMinix3Path name).chars.length + 1 < n) :
    Ensures ∅ (At fs) (processPath n name) fun s m => s = processed name ∧ At fs m := by
  rw [processPath_fits h]
  exact ensures_pure _ fun m hm => ⟨rfl, hm⟩

/-- A name that is bound is found with its inode. -/
theorem found_of_bound {n : Word} (ht : Tree dev.bs fs.disk) (hp : Reachable dev.bs fs.disk parent)
    (hn : BoundTo dev.bs fs.disk parent name n) :
    Ensures ∅ (At fs) (getInodeFromName dev (Minix3.getInode dev.bs fs.disk parent) name)
      fun lookup m => lookup.found = some (n, Minix3.getInode dev.bs fs.disk n) ∧ At fs m := by
  apply (lookup_classified ht hp name).weaken
  rintro lookup m ⟨hlookup, hm⟩
  refine ⟨?_, hm⟩
  cases hlookup with
  | notFound hno => exact absurd ⟨n, hn⟩ hno
  | file hk _ =>
    rw [(ht.directory parent hp).binds_unique hn hk]
    rfl
  | directory hk _ =>
    rw [(ht.directory parent hp).binds_unique hn hk]
    rfl

/-- The list of children grows. -/
theorem addChild_ne {child : ℕ} {new : VDirectory} (h : child ≠ vdir) :
    addChild cache vdir child new ≠ cache := by
  intro heq
  have hchildren := congrArg VDirectory.children (congrFun heq vdir)
  simp only [addChild, Function.update_self, Function.update_of_ne h.symm] at hchildren
  have hlength := congrArg List.length hchildren
  rw [List.length_cons] at hlength
  omega

/-- The blocks of a directory in the cache. -/
def VDirectory.blocks (d : VDirectory) (vdir : ℕ) : List ℕ :=
  [d.childrenLlist, d.vNode, vdir, d.listNode]

/-- A new child of `vdir` for the directory `n`, in blocks that were free. -/
structure Caches (cache : Cache) (vdir : ℕ) (path : CString) (n : Word) (live live' : Finset ℕ)
    (cache' : Cache) (child : ℕ) (d : VDirectory) : Prop where
  cache : cache' = addChild cache vdir child d
  name : d.name = path
  fsType : d.fsType = .minix3
  inodeNum : d.inodeNum = n
  parent : d.parent = vdir
  children : d.children = []
  nodup : (d.blocks child).Nodup
  fresh (b : ℕ) : b ∈ d.blocks child → b ∉ live
  live (b : ℕ) : b ∈ d.blocks child → b ∈ live'

theorem kcalloc_returns {h : Heap ℕ Machine} (hat : At fs h.data) :
    Returns (kcalloc dev) h fun b h' =>
      b ∉ h.live ∧ b ∈ h'.live ∧ h.live ⊆ h'.live ∧ At fs h'.data := by
  apply (returns_allocate dev.heap h).weaken
  rintro b _ ⟨hb, rfl⟩
  exact ⟨hb, Finset.mem_insert_self _ _, Finset.subset_insert _ _, hat⟩

theorem cachePath_returns {path : CString} {h : Heap ℕ Machine} (hat : At fs h.data)
    (hfs : (cache vdir).fsType = .minix3) (ht : Tree dev.bs fs.disk)
    (hp : Reachable dev.bs fs.disk (cache vdir).inodeNum)
    (hlen : path.chars.length < MX3_NAME_LEN) :
    Returns (cachePath dev cache vdir path) h fun p h' => h.live ⊆ h'.live ∧ At fs h'.data ∧
      ((p.1 ≠ 0 ∧ p.2 = cache ∧ ¬ BoundToDirectory dev.bs fs.disk (cache vdir).inodeNum
          (pathToMinix3Path path)) ∨
        (p.1 = 0 ∧ ∃ n child d, BoundTo dev.bs fs.disk (cache vdir).inodeNum
            (pathToMinix3Path path) n ∧ isDirectory dev.bs fs.disk n = true ∧
          Caches cache vdir path n h.live h'.live p.2 child d)) := by
  simp only [cachePath, hfs]
  apply (kcalloc_returns hat).bind
  rintro parent_inode h₁ ⟨-, -, hlive₁, hat₁⟩
  apply ((getInode_ensures _).returns hat₁).bind
  rintro _ h₂ ⟨hlive₂, rfl, hat₂⟩
  apply ((mstrcpy_ensures hlen).returns hat₂).bind
  rintro _ h₃ ⟨hlive₃, rfl, hat₃⟩
  apply (kcalloc_returns hat₃).bind
  rintro child_inode h₄ ⟨-, -, hlive₄, hat₄⟩
  apply (unknown_ensures.returns hat₄).bind
  rintro stack h₅ ⟨hlive₅, hat₅⟩
  apply ((lookup_classified ht hp _).returns hat₅).bind
  rintro lookup h₆ ⟨hlive₆, hlookup, hat₆⟩
  have hlive : h.live ⊆ h₆.live :=
    (((((hlive₁.trans hlive₂).trans hlive₃).trans hlive₄).trans hlive₅).trans hlive₆)
  cases hlookup with
  | notFound hno =>
    have hcode : VFS_RETURN_CODE_NOT_FOUND ≠ 0 := by decide
    refine returns_pure _ ⟨hlive, hat₆, Or.inl ⟨hcode, rfl, ?_⟩⟩
    rintro ⟨n, hn, -⟩
    exact hno ⟨n, hn⟩
  | @file n hn hfile =>
    have hcode : VFS_RETURN_CODE_NOT_DIRECTORY ≠ 0 := by decide
    refine returns_pure _ ⟨hlive, hat₆, Or.inl ⟨hcode, rfl, ?_⟩⟩
    rintro ⟨k, hk, hdir⟩
    obtain rfl := (ht.directory _ hp).binds_unique hn hk
    rw [hfile] at hdir
    cases hdir
  | @directory n hn hdir =>
    apply (kcalloc_returns hat₆).bind
    rintro child h₇ ⟨hnew₇, hmem₇, hlive₇, hat₇⟩
    apply ((mstrcpy_ensures (hlen.trans (by decide))).returns hat₇).bind
    rintro _ h₈ ⟨hlive₈, rfl, hat₈⟩
    apply (kcalloc_returns hat₈).bind
    rintro vnode h₉ ⟨hnew₉, hmem₉, hlive₉, hat₉⟩
    apply (kcalloc_returns hat₉).bind
    rintro children_llist h₁₀ ⟨hnew₁₀, hmem₁₀, hlive₁₀, hat₁₀⟩
    apply (kcalloc_returns hat₁₀).bind
    rintro new_node h₁₁ ⟨hnew₁₁, hmem₁₁, hlive₁₁, hat₁₁⟩
    have hchild₉ : child ∈ h₉.live := hlive₉ (hlive₈ hmem₇)
    have hnode₉ : vnode ∈ h₁₀.live := hlive₁₀ hmem₉
    have hlive₁₁' : h.live ⊆ h₁₁.live :=
      (((hlive.trans hlive₇).trans hlive₈).trans hlive₉).trans (hlive₁₀.trans hlive₁₁)
    refine returns_pure _ ⟨hlive₁₁', hat₁₁, Or.inr ⟨rfl, n, child, _, hn, hdir, rfl, rfl, rfl, rfl,
      rfl, rfl, ?_, fun b hb => ?_, fun b hb => ?_⟩⟩
    · have hne {a b : ℕ} {s : Finset ℕ} (ha : a ∈ s) (hb : b ∉ s) : a ≠ b := fun heq => hb (heq ▸ ha)
      simp only [VDirectory.blocks, List.nodup_cons, List.mem_cons, List.not_mem_nil, or_false,
        not_or, not_false_eq_true, List.nodup_nil, and_true]
      exact ⟨⟨(hne hmem₉ hnew₁₀).symm, (hne hchild₉ hnew₁₀).symm, hne hmem₁₀ hnew₁₁⟩,
        ⟨(hne (hlive₈ hmem₇) hnew₉).symm, hne hnode₉ hnew₁₁⟩, hne (hlive₁₀ hchild₉) hnew₁₁⟩
    · simp only [VDirectory.blocks, List.mem_cons, List.not_mem_nil, or_false] at hb
      have hmid (hm : b ∈ h.live) : b ∈ h₈.live := hlive₈ (hlive₇ (hlive hm))
      rcases hb with rfl | rfl | rfl | rfl
      · exact fun hm => hnew₁₀ (hlive₉ (hmid hm))
      · exact fun hm => hnew₉ (hmid hm)
      · exact fun hm => hnew₇ (hlive hm)
      · exact fun hm => hnew₁₁ (hlive₁₀ (hlive₉ (hmid hm)))
    · simp only [VDirectory.blocks, List.mem_cons, List.not_mem_nil, or_false] at hb
      rcases hb with rfl | rfl | rfl | rfl
      · exact hlive₁₁ hmem₁₀
      · exact hlive₁₁ hnode₉
      · exact hlive₁₁ (hlive₁₀ hchild₉)
      · exact hmem₁₁

theorem cacheMade_returns {h : Heap ℕ Machine} (hat : At fs h.data)
    (hfs : (cache vdir).fsType = .minix3) (ht : Tree dev.bs fs.disk)
    (hp : Reachable dev.bs fs.disk (cache vdir).inodeNum)
    (hlen : (pathToMinix3Path name).chars.length + 1 < MX3_NAME_LEN) :
    Returns (cacheMade dev cache vdir name) h fun cache' h' => h.live ⊆ h'.live ∧ At fs h'.data ∧
      ((cache' = cache ∧ ¬ BoundToDirectory dev.bs fs.disk (cache vdir).inodeNum
          (pathToMinix3Path name)) ∨
        ∃ n child d, BoundTo dev.bs fs.disk (cache vdir).inodeNum (pathToMinix3Path name) n ∧
          isDirectory dev.bs fs.disk n = true ∧
          Caches cache vdir (processed name) n h.live h'.live cache' child d) := by
  have hname : name.chars.length < MX3_NAME_LEN :=
    (pathToMinix3Path_length name).2.trans_lt hlen
  rw [cacheMade]
  apply ((mstrcpy_ensures hname).returns hat).bind
  rintro _ h₁ ⟨hlive₁, rfl, hat₁⟩
  apply ((processPath_ensures hlen).returns hat₁).bind
  rintro _ h₂ ⟨hlive₂, rfl, hat₂⟩
  have hlive := hlive₁.trans hlive₂
  apply (cachePath_returns hat₂ hfs ht hp (processed_length hlen)).bind
  rintro ⟨retval, cache'⟩ h₃ ⟨hlive₃, hat₃, hcase⟩
  rw [pathToMinix3Path_processed] at hcase
  refine returns_pure _ ⟨hlive.trans hlive₃, hat₃, ?_⟩
  rcases hcase with ⟨-, hsame, hno⟩ | ⟨-, n, child, d, hn, hdir, hcaches⟩
  · exact Or.inl ⟨hsame, hno⟩
  · exact Or.inr ⟨n, child, d, hn, hdir,
      { hcaches with fresh := fun b hb hm => hcaches.fresh b hb (hlive hm) }⟩

/-- A directory that has the name gets a child in the cache; otherwise the cache stays. -/
theorem cacheMade_sound (hfs : (cache vdir).fsType = .minix3)
    (ht : Tree dev.bs fs.disk) (hp : Reachable dev.bs fs.disk (cache vdir).inodeNum)
    (hlen : (pathToMinix3Path name).chars.length + 1 < MX3_NAME_LEN) :
    Ensures {vdir} (At fs) (cacheMade dev cache vdir name) fun cache' m => At fs m ∧
      (¬ BoundToDirectory dev.bs fs.disk (cache vdir).inodeNum (pathToMinix3Path name) →
        cache' = cache) ∧
      (BoundToDirectory dev.bs fs.disk (cache vdir).inodeNum (pathToMinix3Path name) →
        cache' ≠ cache) := by
  intro h hown hat
  obtain ⟨cache', h', hrun, hlive, hat', hcase⟩ := cacheMade_returns hat hfs ht hp hlen
  refine ⟨cache', h', hrun, Finset.sdiff_subset.trans hlive, hat', fun hno => ?_, fun hbound => ?_⟩
  · rcases hcase with ⟨hsame, -⟩ | ⟨n, child, d, hn, hdir, -⟩
    · exact hsame
    · exact absurd ⟨n, hn, hdir⟩ hno
  · rcases hcase with ⟨-, hno⟩ | ⟨n, child, d, -, -, hcaches⟩
    · exact absurd hbound hno
    · have hne : child ≠ vdir := by
        rintro rfl
        exact hcaches.fresh _ (by simp [VDirectory.blocks]) (Finset.singleton_subset_iff.mp hown)
      rw [hcaches.cache]
      exact addChild_ne hne

/-- An entry for a new inode that the look-up finds. -/
theorem stored {fs' : Fs} {n : Word} (ht : Tree dev.bs fs'.disk)
    (hp : Reachable dev.bs fs'.disk parent) (hfresh : FreeInode dev.bs fs.disk n)
    (huse : InUse dev.bs fs'.disk n) (hn : BoundTo dev.bs fs'.disk parent name n) :
    Stored dev name fs.disk parent fs' :=
  ⟨n, hfresh.not_inUse, huse, hn, found_of_bound ht hp hn⟩

theorem entered_stored {fs' : Fs} {n : Word} {f_mode f_uid f_gid : BitVec 16}
    (ht : Tree dev.bs fs.disk) (hp : Reachable dev.bs fs.disk parent)
    (hfits : name.chars.length < MX3_NAME_LEN) (hno : ¬ Bound dev.bs fs.disk parent name)
    (he : Entered dev.bs fs parent n name (newInode f_mode f_uid f_gid) fs') :
    Stored dev name fs.disk parent fs' := by
  apply stored (he.tree ht hfits hno hp (fun _ => rfl) rfl) (he.reachable ht hfits hp) he.fresh
  · exact (he.inUse n).mpr (Or.inl rfl)
  · exact (he.boundTo_iff ht hfits hp).mpr (Or.inr ⟨rfl, rfl, rfl⟩)

theorem made_stored {fs' : Fs} {n : Word} (ht : Tree dev.bs fs.disk)
    (hp : Reachable dev.bs fs.disk parent) (hm : Made dev.bs fs parent n name fs') :
    Stored dev name fs.disk parent fs' := by
  apply stored (hm.tree ht hp) (hm.reachable ht hp) hm.fresh
  · exact (hm.inUse n).mpr (Or.inl rfl)
  · exact (hm.bound parent hp name n).mpr (Or.inr ⟨rfl, rfl, rfl⟩)

/-- The disk that a call starts from has no new inode. -/
theorem not_stored : ¬ Stored dev name fs.disk parent fs := by
  rintro ⟨n, hno, huse, -⟩
  exact hno huse

/-! ## The two calls -/

theorem vfsTouch_other (hfs : (cache vdir).fsType ≠ .minix3) :
    vfsTouch dev cache vdir name = pure () := by
  cases htype : (cache vdir).fsType with
  | minix3 => exact absurd htype hfs
  | unknown => simp only [vfsTouch, htype]
  | os => simp only [vfsTouch, htype]

theorem vfsMkdir_other (hfs : (cache vdir).fsType ≠ .minix3) :
    vfsMkdir dev cache vdir name = cacheMade dev cache vdir name := by
  cases htype : (cache vdir).fsType with
  | minix3 => exact absurd htype hfs
  | unknown => simp only [vfsMkdir, htype]
  | os => simp only [vfsMkdir, htype]

theorem cachePath_other {path : CString} (hfs : (cache vdir).fsType ≠ .minix3) :
    cachePath dev cache vdir path = pure (1, cache) := by
  cases htype : (cache vdir).fsType with
  | minix3 => exact absurd htype hfs
  | unknown => simp only [cachePath, htype]
  | os => simp only [cachePath, htype]

theorem touchReg_keeps (ht : Tree dev.bs fs.disk) (hp : Reachable dev.bs fs.disk parent)
    (hfits : name.chars.length < MX3_NAME_LEN)
    (hcan : Bound dev.bs fs.disk parent name ∨ CanTouch dev.bs fs parent 0) :
    Ensures ∅ (At fs) (touchReg dev parent name) fun _ m =>
      m.fs = fs ∨ Stored dev name fs.disk parent m.fs := by
  by_cases hb : Bound dev.bs fs.disk parent name
  · exact (touchCommon_bound ht hp hb).weaken fun _ _ hr => Or.inl hr.2
  · apply (touchCommon_sound ht hp (hcan.resolve_left hb)).weaken
    rintro r m (⟨-, -, hm⟩ | ⟨-, hno, n, he, -⟩)
    · exact Or.inl hm
    · exact Or.inr (entered_stored ht hp hfits hno he)

theorem mkdir_makes (ht : Tree dev.bs fs.disk) (hp : Reachable dev.bs fs.disk parent)
    (hfits : name.chars.length < MX3_NAME_LEN)
    (hcan : Bound dev.bs fs.disk parent name ∨
      (CanTouch dev.bs fs parent 1 ∧ 2 * dirEntrySize ≤ dev.bs)) :
    Ensures ∅ (At fs) (mkdir dev parent name) fun _ m =>
      m.fs = fs ∨ ∃ n, Made dev.bs fs parent n name m.fs := by
  by_cases hb : Bound dev.bs fs.disk parent name
  · exact (mkdir_bound ht hp hb).weaken fun _ _ hr => Or.inl hr.2
  · obtain ⟨hcan, hbs⟩ := hcan.resolve_left hb
    apply (mkdir_sound ht hp hcan hbs hfits).weaken
    rintro r m (⟨-, -, hm⟩ | ⟨-, -, n, hmade, -⟩)
    · exact Or.inl hm
    · exact Or.inr ⟨n, hmade⟩

theorem touch_keeps (hcached : Cached dev cache fs vdir)
    (hroom : TouchRoom dev cache fs vdir name) (hfits : TouchFits cache vdir name) :
    TouchKeeps dev cache fs vdir name := by
  by_cases hfs : (cache vdir).fsType = .minix3
  · obtain ⟨ht, hp⟩ := hcached hfs
    have hlen := hfits hfs
    have hname := (pathToMinix3Path_length name).1.trans_lt hlen
    simp only [TouchKeeps, vfsTouch, hfs]
    apply (mstrcpy_ensures hlen).step
    apply ((touchReg_keeps ht hp hname (hroom hfs)).mono (Finset.empty_subset _)).before
    exact fun _ => ensures_pure _ fun m hm => hm.imp (congrArg Fs.disk) id
  · rw [TouchKeeps, vfsTouch_other hfs]
    exact ensures_pure _ fun m hm => Or.inl (congrArg Fs.disk hm)

theorem mkdir_keeps (hcached : Cached dev cache fs vdir)
    (hroom : MkdirRoom dev cache fs vdir name) (hfits : MkdirFits dev cache fs vdir name) :
    MkdirKeeps dev cache fs vdir name := by
  have hlen := hfits.length
  have hname : name.chars.length < MX3_NAME_LEN :=
    (pathToMinix3Path_length name).2.trans_lt hlen
  by_cases hfs : (cache vdir).fsType = .minix3
  · obtain ⟨ht, hp⟩ := hcached hfs
    simp only [MkdirKeeps, vfsMkdir, hfs]
    apply (mstrcpy_ensures hname).step
    apply (mkdir_makes ht hp (Nat.lt_of_succ_lt hlen) (hroom hfs)).bind
    intro retval
    apply ensures_at (P := fun fs' => fs' = fs ∨
      ∃ n, Made dev.bs fs (cache vdir).inodeNum n (pathToMinix3Path name) fs')
    rintro fs' (rfl | ⟨n, hmade⟩)
    · apply (cacheMade_sound hfs ht hp hlen).weaken
      rintro cache' m ⟨hm, hsame, -⟩
      exact Or.inl ⟨congrArg Fs.disk hm, hsame (hfits.new hfs)⟩
    · apply (cacheMade_sound hfs (hmade.tree ht hp) (hmade.reachable ht hp) hlen).weaken
      rintro cache' m ⟨rfl, -⟩
      exact Or.inr (made_stored ht hp hmade)
  · rw [MkdirKeeps, vfsMkdir_other hfs]
    apply (mstrcpy_ensures hname).step
    apply (processPath_ensures hlen).step
    rw [cachePath_other hfs]
    exact ensures_pure _ fun m hm => Or.inl ⟨congrArg Fs.disk hm, rfl⟩

theorem touch_fits (h : TouchKeeps dev cache fs vdir name) : TouchFits cache vdir name := by
  intro hfs
  by_contra hlen
  exact (never_vfsTouch hfs hlen).not_ensures h

/-- A directory that exists gets a second child with its name. -/
theorem mkdir_fits (hcached : Cached dev cache fs vdir) (h : MkdirKeeps dev cache fs vdir name) :
    MkdirFits dev cache fs vdir name := by
  have hlen : (pathToMinix3Path name).chars.length + 1 < MX3_NAME_LEN := by
    by_contra hlen
    exact (never_vfsMkdir hlen).not_ensures h
  refine ⟨hlen, fun hfs hdir => ?_⟩
  obtain ⟨ht, hp⟩ := hcached hfs
  have hb : Bound dev.bs fs.disk (cache vdir).inodeNum (pathToMinix3Path name) :=
    hdir.imp fun _ hn => hn.1
  have hname : name.chars.length < MX3_NAME_LEN :=
    (pathToMinix3Path_length name).2.trans_lt hlen
  have hcaches : Ensures {vdir} (At fs) (vfsMkdir dev cache vdir name) fun cache' m =>
      At fs m ∧ cache' ≠ cache := by
    simp only [vfsMkdir, hfs]
    apply (mstrcpy_ensures hname).step
    apply ((mkdir_bound ht hp hb).weaken fun _ _ hr => hr.2).bind
    intro retval
    apply (cacheMade_sound hfs ht hp hlen).weaken
    exact fun cache' m hall => ⟨hall.1, hall.2.2 hdir⟩
  obtain ⟨cache', h', -, -, ⟨hm, hne⟩, hkeeps⟩ :=
    hcaches.and h ⟨{vdir}, ⟨fs, fun _ _ => 0⟩⟩ subset_rfl rfl
  rcases hkeeps with ⟨-, hsame⟩ | hstored
  · exact hne hsame
  · rw [show h'.data.fs = fs from hm] at hstored
    exact not_stored hstored

end Sound

/-- Only a name that fits in the arrays, for `vfs_mkdir` one that is not a directory yet, is stored
or leaves everything as it is, and with room on the disk every such name does. -/
theorem vfs_names_kept (dev : Mount) (cache : Cache) (fs : Fs) (vdir : ℕ)
    (hcached : Cached dev cache fs vdir) (name : CString) :
    ((TouchKeeps dev cache fs vdir name → TouchFits cache vdir name) ∧
      (TouchRoom dev cache fs vdir name → TouchFits cache vdir name →
        TouchKeeps dev cache fs vdir name)) ∧
    ((MkdirKeeps dev cache fs vdir name → MkdirFits dev cache fs vdir name) ∧
      (MkdirRoom dev cache fs vdir name → MkdirFits dev cache fs vdir name →
        MkdirKeeps dev cache fs vdir name)) :=
  ⟨⟨touch_fits, touch_keeps hcached⟩, ⟨mkdir_fits hcached, mkdir_keeps hcached⟩⟩

/-! The root directory is the only one in the cache. -/

section Root

def rootCache : Cache := fun _ =>
  ⟨⟨[slash], slash_no_nul⟩, 0, .minix3, 1, none, 0, [], 0, 0, 0⟩

theorem vfs_names_kept_root :
    TouchKeeps smallMount rootCache (rootHeap false).data.fs 0 fileName ∧
      MkdirKeeps smallMount rootCache (rootHeap false).data.fs 0 fileName := by
  have hcached : Cached smallMount rootCache (rootHeap false).data.fs 0 :=
    fun _ => ⟨root_tree, .root⟩
  have hall := vfs_names_kept smallMount rootCache (rootHeap false).data.fs 0 hcached fileName
  have hcan (l : ℕ) (hl : l ≤ 7) : CanTouch 1024 (rootHeap false).data.fs 1 l :=
    root_canTouch.mono hl
  have hname : pathToMinix3Path fileName = fileName := if_neg (by decide)
  have hnone : ¬ Bound 1024 (rootDevice false) 1 (pathToMinix3Path fileName) :=
    hname ▸ root_unbound
  refine ⟨hall.1.2 (fun _ => Or.inr (hcan 0 (by decide))) fun _ => by decide,
    hall.2.2 (fun _ => Or.inr ⟨hcan 1 (by decide), by decide⟩) ⟨?_, fun _ hdir => ?_⟩⟩
  · rw [hname]
    decide
  · exact hnone (hdir.imp fun _ hn => hn.1)

/-- A name of 60 bytes, and a directory that is there. -/
theorem vfs_names_lost : (∃ name : CString, name.chars.length = 60 ∧
      ¬ TouchKeeps smallMount rootCache (rootHeap false).data.fs 0 name) ∧
    ¬ MkdirKeeps smallMount rootCache (rootHeap false).data.fs 0 dot := by
  have hcached : Cached smallMount rootCache (rootHeap false).data.fs 0 :=
    fun _ => ⟨root_tree, .root⟩
  refine ⟨⟨⟨List.replicate 60 0x61, by decide⟩, by decide, fun h => ?_⟩, fun h => ?_⟩
  · exact absurd (touch_fits h rfl) (by decide)
  · have hname : pathToMinix3Path dot = dot := if_neg (by decide)
    apply (mkdir_fits hcached h).new rfl
    rw [hname]
    exact ⟨1, root_dot, root_tree.root.2⟩

end Root

end Vfs
