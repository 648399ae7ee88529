import DucreuOS.ConsistentCalls
import DucreuOS.Library.ChildTree
import DucreuOS.VfsNames

/-! # The cache of directories in the VFS layer

`vfs_cd`, `vfs_mkdir`, `vfs_rmdir`, `vfs_touch` and `vfs_rm` at `v_dir_pwd`, in every run after
`vfs_mount_minix3`: what the cache says about the directories of the disk. -/
namespace Vfs

open ByteMemory LiveBlocks ChildTree Transition Minix3 Minix3.FileOps

def VFS_PATH_LENGTH : ℕ := 256

/-- `v_dir_root`, `v_dir_pwd` and the directories. -/
structure VfsState where
  cache : Cache
  vDirRoot : ℕ
  vDirPwd : ℕ

def empty : CString := ⟨[], nil_no_nul⟩

/-! ## The source -/

section Source

variable (dev : Mount)

/-- `vfs_get_path`, in at most `fuel` rounds -/
def getPath (cache : Cache) : ℕ → ℕ → Option (List Byte)
  | 0, _ => none
  | fuel + 1, cur_dir =>
    if (cache cur_dir).parent = cur_dir then some (cache cur_dir).name.chars
    else (getPath cache fuel (cache cur_dir).parent).map (· ++ (cache cur_dir).name.chars)

/-- `vfs_update_pwd`: a path that does not fit in `vfs_pwd` is written behind its end. -/
def updatePwd (cache : Cache) (v_dir_pwd : ℕ) : Op Unit :=
  match getPath cache rounds v_dir_pwd with
  | some path => if path.length < VFS_PATH_LENGTH then pure () else hang
  | none => hang

/-- The first child with the name. -/
def findChild (cache : Cache) (vdir : ℕ) (path : CString) : Option ℕ :=
  (cache vdir).children.find? fun child => path = (cache child).name

def isPathCached (cache : Cache) (vdir : ℕ) (path : CString) : Bool :=
  (findChild cache vdir path).isSome

def setPwd (vfs : VfsState) (vdir : ℕ) : Op VfsState := do
  updatePwd vfs.cache vdir
  pure { vfs with vDirPwd := vdir }

def cdIntoCachedPath (vfs : VfsState) (path : CString) : Op VfsState :=
  match findChild vfs.cache vfs.vDirPwd path with
  | some child => setPwd vfs child
  | none => pure vfs

def vfsCd (vfs : VfsState) (path : CString) : Op VfsState :=
  if path = dot then pure vfs
  else if path = empty then setPwd vfs vfs.vDirRoot
  else if path = dotDot then setPwd vfs (vfs.cache vfs.vDirPwd).parent
  else do
    let processed_path ← mstrcpy VFS_PATH_LENGTH path
    let processed_path ← processPath VFS_PATH_LENGTH processed_path
    if isPathCached vfs.cache vfs.vDirPwd processed_path then cdIntoCachedPath vfs processed_path
    else do
      let (retval, cache) ← cachePath dev vfs.cache vfs.vDirPwd processed_path
      if retval ≠ 0 then pure { vfs with cache := cache }
      else cdIntoCachedPath { vfs with cache := cache } processed_path

def vfsRm (cache : Cache) (vdir : ℕ) (fname : CString) : Op Unit :=
  match (cache vdir).fsType with
  | .minix3 => do
    let mx3_fname ← mstrcpy MX3_NAME_LEN fname
    let _ ← rm dev (cache vdir).inodeNum (pathToMinix3Path mx3_fname)
    pure ()
  | _ => pure ()

def removeFromLlist (cache : Cache) (vdir child : ℕ) : Cache :=
  Function.update cache vdir { cache vdir with children := (cache vdir).children.erase child }

/-- A directory with children is reported, and its blocks stay. -/
def freeDirectoryLlistNode (cache : Cache) (vdir : ℕ) : Op Unit :=
  if (cache vdir).children ≠ [] then pure ()
  else do
    kfree (cache vdir).childrenLlist
    kfree (cache vdir).vNode
    kfree vdir
    kfree (cache vdir).listNode

/-- The end of `vfs_rmdir`. -/
def removeFromCachedTree (cache : Cache) (vdir : ℕ) (dirname : CString) : Op Cache := do
  let vfs_dirname ← mstrcpy VFS_FNAME_LENGTH dirname
  let vfs_dirname ← processPath VFS_FNAME_LENGTH vfs_dirname
  match findChild cache vdir vfs_dirname with
  | none => pure cache
  | some child_vfs_node => do
    freeDirectoryLlistNode (removeFromLlist cache vdir child_vfs_node) child_vfs_node
    pure (removeFromLlist cache vdir child_vfs_node)

def vfsRmdir (cache : Cache) (vdir : ℕ) (dirname : CString) : Op Cache :=
  match (cache vdir).fsType with
  | .minix3 => do
    let mx3_dirname ← mstrcpy MX3_NAME_LEN dirname
    let retval ← rmdir dev (cache vdir).inodeNum (pathToMinix3Path mx3_dirname)
    if retval = 0 then removeFromCachedTree cache vdir dirname else pure cache
  | _ => pure cache

/-- The root directory before anything is mounted there. -/
def rootDirectory (v_dir_root children_llist : ℕ) : VDirectory :=
  ⟨⟨[slash], slash_no_nul⟩, -1, .os, 0, none, v_dir_root, [], 0, children_llist, 0⟩

def vfsInit (cache : Cache) : Op VfsState := do
  let v_dir_root ← kcalloc dev
  let children_llist ← kcalloc dev
  let _vfs_pwd ← kcalloc dev
  setPwd ⟨Function.update cache v_dir_root (rootDirectory v_dir_root children_llist),
    v_dir_root, v_dir_root⟩ v_dir_root

/-- A directory that is mounted already is reported. -/
def vfsMountMinix3 (mx3_block_dev : BitVec 32) (vfs : VfsState) (mount_to_dir : ℕ) : Op VfsState := do
  let vnode ← kcalloc dev
  let mx3_root ← kcalloc dev
  let (_, mx3Root) ← getInode dev 1
  kfree mx3_root
  let mounted : VDirectory := { vfs.cache mount_to_dir with
    whichDev := mx3_block_dev
    fsType := .minix3
    inodeNum := 1
    vInode := some ⟨mx3Root.mode, mx3Root.uid, mx3Root.gid⟩
    vNode := vnode }
  pure { vfs with cache := Function.update vfs.cache mount_to_dir mounted }

def vfsMounted (mx3_block_dev : BitVec 32) (cache : Cache) : Op VfsState := do
  let vfs ← vfsInit dev cache
  vfsMountMinix3 dev mx3_block_dev vfs vfs.vDirRoot

inductive Command
  | cd (path : CString)
  | mkdir (dirname : CString)
  | rmdir (dirname : CString)
  | touch (fname : CString)
  | rm (fname : CString)

namespace Command

def name : Command → CString
  | cd name | mkdir name | rmdir name | touch name | rm name => name

def run (vfs : VfsState) : Command → Op VfsState
  | cd path => vfsCd dev vfs path
  | mkdir dirname => do
    let cache ← vfsMkdir dev vfs.cache vfs.vDirPwd dirname
    pure { vfs with cache := cache }
  | rmdir dirname => do
    let cache ← vfsRmdir dev vfs.cache vfs.vDirPwd dirname
    pure { vfs with cache := cache }
  | touch fname => do
    vfsTouch dev vfs.cache vfs.vDirPwd fname
    pure vfs
  | rm fname => do
    vfsRm dev vfs.cache vfs.vDirPwd fname
    pure vfs

end Command

end Source

/-! ## What the cache is to say -/

section Claims

/-- The name of a directory in the cache. -/
def withSlash (name : CString) : CString := ⟨name.chars ++ [slash], append_slash name⟩

def InCache (cache : Cache) (root v : ℕ) : Prop := Below (fun v => (cache v).children) root v

/-- The directory `c` of the cache is the one that the directory `v` of the disk has as `name`. -/
structure Agrees (bs : ℕ) (disk : Mem) (cache : Cache) (v c : ℕ) (name : CString) : Prop where
  called : (cache c).name = withSlash name
  bound : BoundTo bs disk (cache v).inodeNum name (cache c).inodeNum
  directory : isDirectory bs disk (cache c).inodeNum = true

structure CacheAgrees (bs : ℕ) (disk : Mem) (vfs : VfsState) : Prop where
  distinct (v : ℕ) : InCache vfs.cache vfs.vDirRoot v →
    ((vfs.cache v).children.map fun c => (vfs.cache c).name).Nodup
  child (v c : ℕ) : InCache vfs.cache vfs.vDirRoot v → c ∈ (vfs.cache v).children →
    InUse bs disk (vfs.cache c).inodeNum ∧ ∃ name, Agrees bs disk vfs.cache v c name
  pwd : InUse bs disk (vfs.cache vfs.vDirPwd).inodeNum ∧
    isDirectory bs disk (vfs.cache vfs.vDirPwd).inodeNum = true

/-- A name has at most 58 bytes. -/
def Command.Given (c : Command) : Prop := c.name.chars.length ≤ 58

/-- The condition on the disk is that of the MINIX3 call. A directory that is made is not in the
cache, and the one that is removed is not `.`; the path that `cd` leads to fits in `vfs_pwd`. -/
def Command.Meets (dev : Mount) (fs : Fs) (vfs : VfsState) : Command → Prop
  | cd path => path = dot ∨ path = empty ∨ path = dotDot ∨ (Plain (pathToMinix3Path path) ∧
      ∀ pwd, getPath vfs.cache rounds vfs.vDirPwd = some pwd →
        pwd.length + (pathToMinix3Path path).chars.length + 1 < VFS_PATH_LENGTH)
  | mkdir dirname => dirname ≠ empty ∧
      (NameCall.mkdir (pathToMinix3Path dirname)).Meets dev (vfs.cache vfs.vDirPwd).inodeNum fs ∧
      ¬ isPathCached vfs.cache vfs.vDirPwd (withSlash (pathToMinix3Path dirname))
  | rmdir dirname => dirname ≠ empty ∧ (pathToMinix3Path dirname ≠ dot ∨
      ¬ Removable dev.bs fs.disk (vfs.cache vfs.vDirPwd).inodeNum)
  | touch fname =>
    (NameCall.touch (pathToMinix3Path fname)).Meets dev (vfs.cache vfs.vDirPwd).inodeNum fs
  | rm fname =>
    (NameCall.rm (pathToMinix3Path fname)).Meets dev (vfs.cache vfs.vDirPwd).inodeNum fs

/-- The machine and the VFS layer. -/
structure System where
  heap : Heap ℕ Machine
  vfs : VfsState

def CommandStep (dev : Mount) (s : System) (c : Command) (s' : System) : Prop :=
  c.Given ∧ c.Meets dev s.heap.data.fs s.vfs ∧ c.run dev s.vfs s.heap = .ok (s'.vfs, s'.heap)

end Claims

/-! ## The invariant -/

section Invariant

variable {bs : ℕ} {disk disk' : Mem} {live live' : Finset ℕ} {cache cache' : Cache}
  {root v w c x : ℕ} {vs : List ℕ} {name path : CString} {n : Word} {d : VDirectory}

/-- The root, or a directory with a plain name: neither `./` nor `../`. -/
def Proper (cache : Cache) (root v : ℕ) : Prop :=
  v = root ∨ ∃ name, Plain name ∧ (cache v).name = withSlash name

structure CacheSound (bs : ℕ) (disk : Mem) (live : Finset ℕ) (cache : Cache) (root : ℕ) : Prop where
  links : Linked (fun v => (cache v).children) (fun v => (cache v).parent) root
  rootName : (cache root).name.chars = [slash]
  rootParent : (cache root).parent = root
  rootInode : (cache root).inodeNum = 1
  kind (v : ℕ) : InCache cache root v → (cache v).fsType = .minix3
  distinct (v : ℕ) : InCache cache root v →
    ((cache v).children.map fun c => (cache c).name).Nodup
  child (v c : ℕ) : InCache cache root v → c ∈ (cache v).children →
    ∃ name, Agrees bs disk cache v c name ∧ (Plain name ∨ (cache c).children = [])
  rootLive : root ∈ live
  nodup (c : ℕ) : InCache cache root c → c ≠ root → ((cache c).blocks c).Nodup
  live (c b : ℕ) : InCache cache root c → c ≠ root → b ∈ (cache c).blocks c → b ∈ live ∧ b ≠ root
  apart (c c' b : ℕ) : InCache cache root c → InCache cache root c' → c ≠ root → c' ≠ root →
    c ≠ c' → b ∈ (cache c).blocks c → b ∉ (cache c').blocks c'

theorem eq_of_chars {a b : CString} (h : a.chars = b.chars) : a = b := by
  cases a
  cases b
  cases h
  rfl

theorem withSlash_injective {a b : CString} (h : withSlash a = withSlash b) : a = b :=
  eq_of_chars (List.append_cancel_right (congrArg CString.chars h))

namespace CacheSound

variable (h : CacheSound bs disk live cache root)

include h

theorem reachable (hv : InCache cache root v) : Reachable bs disk (cache v).inodeNum := by
  induction hv with
  | root =>
    rw [h.rootInode]
    exact .root
  | @child v c hv hc ih =>
    obtain ⟨name, hagrees, -⟩ := h.child v c hv hc
    exact .step ih hagrees.bound hagrees.directory

theorem child_ne_root (hv : InCache cache root v) (hc : c ∈ (cache v).children) : c ≠ root := by
  rintro rfl
  exact h.links.root v hv hc

/-- Only a proper directory has children. -/
theorem proper_of_child (hv : InCache cache root v) (hc : c ∈ (cache v).children) :
    Proper cache root v := by
  rcases hv.cases_child with rfl | ⟨w, hw, hvw⟩
  · exact Or.inl rfl
  · obtain ⟨name, hagrees, hplain | hnone⟩ := h.child w v hw hvw
    · exact Or.inr ⟨name, hplain, hagrees.called⟩
    · rw [hnone] at hc
      cases hc

theorem plain_of_proper (hv : InCache cache root v) (hc : c ∈ (cache v).children)
    (hp : Proper cache root c) (ha : Agrees bs disk cache v c name) : Plain name := by
  rcases hp with rfl | ⟨other, hplain, hother⟩
  · exact absurd hc (h.links.root v hv)
  · rwa [withSlash_injective (ha.called.symm.trans hother)]

/-- A name in the list of children is for one of them. -/
theorem child_unique (hv : InCache cache root v) (hc : c ∈ (cache v).children)
    (hx : x ∈ (cache v).children) (hname : (cache c).name = (cache x).name) : c = x :=
  List.inj_on_of_nodup_map (h.distinct v hv) hc hx hname

/-- A directory of the disk has one proper directory in the cache. -/
theorem proper_unique (hh : Hierarchy bs disk) (hv : InCache cache root v)
    (hvp : Proper cache root v) (hw : InCache cache root w) (hwp : Proper cache root w)
    (hinode : (cache v).inodeNum = (cache w).inodeNum) : v = w := by
  induction hv generalizing w with
  | root =>
    rcases hw.cases_child with rfl | ⟨u, hu, hwu⟩
    · rfl
    · obtain ⟨name, hagrees, -⟩ := h.child u w hu hwu
      have hplain := h.plain_of_proper hu hwu hwp hagrees
      rw [h.rootInode] at hinode
      exact absurd (hinode ▸ hagrees.bound) (hh.top _ _ (h.reachable hu) hplain)
  | @child u v hu hvu ih =>
    obtain ⟨name, hagrees, -⟩ := h.child u v hu hvu
    have hplain := h.plain_of_proper hu hvu hvp hagrees
    rcases hw.cases_child with rfl | ⟨u', hu', hwu⟩
    · rw [h.rootInode] at hinode
      exact absurd (hinode ▸ hagrees.bound) (hh.top _ _ (h.reachable hu) hplain)
    · obtain ⟨name', hagrees', -⟩ := h.child u' w hu' hwu
      have hplain' := h.plain_of_proper hu' hwu hwp hagrees'
      obtain ⟨hparent, rfl⟩ := hh.once (h.reachable hu) (h.reachable hu') hplain hplain'
        hagrees.bound (hinode ▸ hagrees'.bound)
      obtain rfl := ih (h.proper_of_child hu hvu) hu' (h.proper_of_child hu' hwu) hparent
      exact h.child_unique hu hvu hwu (hagrees.called.trans hagrees'.called.symm)

/-! ### The disk changes -/

theorem keep (hlive : live ⊆ live') (hchild : ∀ v c name, InCache cache root v →
      c ∈ (cache v).children → Agrees bs disk cache v c name → Agrees bs disk' cache v c name) :
    CacheSound bs disk' live' cache root :=
  { h with
    child := fun v c hv hc => by
      obtain ⟨name, hagrees, hleaf⟩ := h.child v c hv hc
      exact ⟨name, hchild v c name hv hc hagrees, hleaf⟩
    rootLive := hlive h.rootLive
    live := fun c b hc hne hb => ⟨hlive (h.live c b hc hne hb).1, (h.live c b hc hne hb).2⟩ }

theorem adds {b : Bool} {parent : Word} (ht : Tree bs disk) (hlive : live ⊆ live')
    (ha : Adds bs disk parent n name b disk') : CacheSound bs disk' live' cache root := by
  apply h.keep hlive
  intro v c other hv hc hagrees
  have huse := (ht.reachable (h.reachable (.child hv hc))).1
  exact ⟨hagrees.called, (ha.bound _ (h.reachable hv) _ _).mpr (Or.inl hagrees.bound),
    (ha.mode _ huse).trans hagrees.directory⟩

/-- An inode that no directory of the cache has is removed. -/
theorem drops {b : Bool} {parent : Word} (ht : Tree bs disk) (hlive : live ⊆ live')
    (hd : Drops bs disk parent n name b disk')
    (hne : ∀ v, InCache cache root v → (cache v).inodeNum ≠ n) :
    CacheSound bs disk' live' cache root := by
  apply h.keep hlive
  intro v c other hv hc hagrees
  have huse := (ht.reachable (h.reachable (.child hv hc))).1
  have hcn := hne c (.child hv hc)
  exact ⟨hagrees.called, (hd.left _ (h.reachable hv) (hne v hv) _ _).mpr ⟨hagrees.bound, hcn⟩,
    (hd.mode _ huse hcn).trans hagrees.directory⟩

theorem mem_live (hv : InCache cache root v) : v ∈ live := by
  by_cases hroot : v = root
  · exact hroot ▸ h.rootLive
  · exact (h.live v v hv hroot (by simp [VDirectory.blocks])).1

end CacheSound

/-! ### A child is taken away -/

theorem removeFromLlist_apply : removeFromLlist cache w c v = { cache v with
    children := if v = w then (cache w).children.erase c else (cache v).children } := by
  by_cases hv : v = w
  · subst hv
    rw [removeFromLlist, Function.update_self, if_pos rfl]
  · rw [removeFromLlist, Function.update_of_ne hv, if_neg hv]

theorem removed_sublist :
    (((removeFromLlist cache w c) v).children).Sublist (cache v).children := by
  rw [removeFromLlist_apply]
  by_cases hv : v = w
  · subst hv
    rw [if_pos rfl]
    exact List.erase_sublist
  · rw [if_neg hv]

theorem removed_children : ((removeFromLlist cache w c) v).children ⊆ (cache v).children :=
  removed_sublist.subset

theorem CacheSound.below_removed (hv : InCache (removeFromLlist cache w c) root v) :
    InCache cache root v := hv.mono fun _ _ => removed_children

variable (h : CacheSound bs disk live cache root) (hw : InCache cache root w)

include h hw

/-- What is taken away is not in the cache any more. -/
theorem CacheSound.not_below_removed (hc : c ∈ (cache w).children) :
    ¬ InCache (removeFromLlist cache w c) root c := by
  intro hin
  rcases hin.cases_child with rfl | ⟨v, hv, hcv⟩
  · exact h.links.root w hw hc
  · have hparent : v = w := by
      rw [← h.links.parent v c (below_removed hv) (removed_children hcv), h.links.parent w c hw hc]
    subst hparent
    rw [removeFromLlist_apply, if_pos rfl] at hcv
    exact (List.Nodup.of_map _ (h.distinct v hw)).not_mem_erase hcv

theorem CacheSound.remove (hc : c ∈ (cache w).children)
    (hlive : ∀ b ∈ live, b ∉ (cache c).blocks c → b ∈ live') :
    CacheSound bs disk live' (removeFromLlist cache w c) root := by
  have hroot := h.child_ne_root hw hc
  have hold {v : ℕ} (hv : InCache (removeFromLlist cache w c) root v) : InCache cache root v ∧ v ≠ c :=
    ⟨below_removed hv, fun heq => h.not_below_removed hw hc (heq ▸ hv)⟩
  refine ⟨⟨fun v x hv hx => ?_, fun v hv hx => ?_⟩, ?_, ?_, ?_, fun v hv => ?_, fun v hv => ?_,
    fun v x hv hx => ?_, ?_, fun x hx hne => ?_, fun x b hx hne hb => ?_,
    fun x x' b hx hx' hne hne' hxx hb => ?_⟩
  · rw [removeFromLlist_apply]
    exact h.links.parent v x (hold hv).1 (removed_children hx)
  · exact h.links.root v (hold hv).1 (removed_children hx)
  · rw [removeFromLlist_apply]
    exact h.rootName
  · rw [removeFromLlist_apply]
    exact h.rootParent
  · rw [removeFromLlist_apply]
    exact h.rootInode
  · rw [removeFromLlist_apply]
    exact h.kind v (hold hv).1
  · have hnames : (fun x => ((removeFromLlist cache w c) x).name) = fun x => (cache x).name := by
      funext x
      rw [removeFromLlist_apply]
    rw [hnames]
    exact (h.distinct v (hold hv).1).sublist (removed_sublist.map _)
  · obtain ⟨name, hagrees, hleaf⟩ := h.child v x (hold hv).1 (removed_children hx)
    refine ⟨name, ⟨?_, ?_, ?_⟩, hleaf.imp id fun hnone => ?_⟩
    · rw [removeFromLlist_apply]
      exact hagrees.called
    · rw [removeFromLlist_apply, removeFromLlist_apply]
      exact hagrees.bound
    · rw [removeFromLlist_apply]
      exact hagrees.directory
    · exact List.subset_nil.mp (hnone ▸ removed_children)
  · exact hlive root h.rootLive fun hb => (h.live c root (.child hw hc) hroot hb).2 rfl
  · rw [removeFromLlist_apply]
    exact h.nodup x (hold hx).1 hne
  · rw [removeFromLlist_apply] at hb
    obtain ⟨hblive, hbroot⟩ := h.live x b (hold hx).1 hne hb
    refine ⟨hlive b hblive ?_, hbroot⟩
    exact h.apart x c b (hold hx).1 (.child hw hc) hne hroot (hold hx).2 hb
  · rw [removeFromLlist_apply] at hb ⊢
    exact h.apart x x' b (hold hx).1 (hold hx').1 hne hne' hxx hb

omit h hw

/-! ### A child is added -/

theorem addChild_new (hne : c ≠ w) : addChild cache w c d c = d := by
  rw [addChild, Function.update_of_ne hne, Function.update_self]

theorem addChild_parent (hne : c ≠ w) :
    addChild cache w c d w = { cache w with children := c :: (cache w).children } := by
  rw [addChild, Function.update_self, Function.update_of_ne hne.symm]

theorem addChild_old (hvw : v ≠ w) (hvc : v ≠ c) : addChild cache w c d v = cache v := by
  rw [addChild, Function.update_of_ne hvw, Function.update_of_ne hvc]

/-- An old directory stays, but for its list. -/
theorem addChild_kept (hvc : v ≠ c) : addChild cache w c d v =
    { cache v with children := ((addChild cache w c d) v).children } := by
  by_cases hvw : v = w
  · subst hvw
    rw [addChild_parent (Ne.symm hvc)]
  · rw [addChild_old hvw hvc]

theorem Caches.attached (hcaches : Caches cache w path n live live' cache' c d)
    (h : CacheSound bs disk live cache root) (hw : InCache cache root w) :
    c ≠ w ∧ Attached (fun v => (cache v).children) root w c fun v => (cache' v).children := by
  have hfresh (v : ℕ) (hv : InCache cache root v) : v ≠ c := by
    rintro rfl
    exact hcaches.fresh v (by simp [VDirectory.blocks]) (h.mem_live hv)
  have hne := (hfresh w hw).symm
  refine ⟨hne, fun v hvw hvc => ?_, ?_, ?_, hw, fun hc => hfresh c hc rfl⟩
  · rw [hcaches.cache, addChild_old hvw hvc]
  · rw [hcaches.cache, addChild_parent hne]
  · rw [hcaches.cache, addChild_new hne]
    exact hcaches.children

include h hw

theorem CacheSound.attach (hproper : Proper cache root w)
    (hcaches : Caches cache w (withSlash name) n live live' cache' c d) (hlive : live ⊆ live')
    (hn : BoundTo bs disk (cache w).inodeNum name n) (hdir : isDirectory bs disk n = true)
    (hnew : ∀ x ∈ (cache w).children, (cache x).name ≠ withSlash name) :
    CacheSound bs disk live' cache' root := by
  obtain ⟨hcw, hattached⟩ := hcaches.attached h hw
  have hcase {x : ℕ} (hx : InCache cache' root x) : x = c ∨ (InCache cache root x ∧ x ≠ c) := by
    by_cases hxc : x = c
    · exact Or.inl hxc
    · exact Or.inr ⟨(hattached.below_iff.mp hx).resolve_right hxc, hxc⟩
  have hkept {x : ℕ} (hx : x ≠ c) :
      cache' x = { cache x with children := (cache' x).children } := by
    rw [hcaches.cache]
    exact addChild_kept hx
  have hnewc : cache' c = d := by rw [hcaches.cache, addChild_new hcw]
  have hold {x : ℕ} (hx : InCache cache root x) : x ≠ c := fun heq => hattached.fresh (heq ▸ hx)
  -- a child in the new lists is the new one or an old one
  have hchildren {v x : ℕ} (hv : InCache cache' root v) (hx : x ∈ (cache' v).children) :
      InCache cache root v ∧ ((v = w ∧ x = c) ∨ (x ∈ (cache v).children ∧ x ≠ c)) := by
    rcases hcase hv with rfl | ⟨hv, hvc⟩
    · rw [hnewc, hcaches.children] at hx
      cases hx
    · refine ⟨hv, ?_⟩
      by_cases hvw : v = w
      · subst hvw
        rw [show (cache' v).children = c :: (cache v).children from hattached.first] at hx
        rcases List.mem_cons.mp hx with rfl | hx
        · exact Or.inl ⟨rfl, rfl⟩
        · exact Or.inr ⟨hx, hold (.child hv hx)⟩
      · rw [show (cache' v).children = (cache v).children from hattached.old v hvw hvc] at hx
        exact Or.inr ⟨hx, hold (.child hv hx)⟩
  have hroot := hold .root
  have hblocks {x : ℕ} (hx : x ≠ c) : (cache' x).blocks x = (cache x).blocks x := by
    rw [hkept hx]
    rfl
  have hnames {v : ℕ} (hv : InCache cache root v) : (cache v).children.map
      (fun x => (cache' x).name) = (cache v).children.map fun x => (cache x).name :=
    List.map_congr_left fun x hx => by rw [hkept (hold (.child hv hx))]
  refine ⟨⟨fun v x hv hx => ?_, fun v hv hx => ?_⟩, ?_, ?_, ?_, fun v hv => ?_, fun v hv => ?_,
    fun v x hv hx => ?_, hlive h.rootLive, fun x hx hne => ?_, fun x b hx hne hb => ?_,
    fun x x' b hx hx' hne hne' hxx hb => ?_⟩
  · obtain ⟨hv, ⟨rfl, rfl⟩ | ⟨hx, hxc⟩⟩ := hchildren hv hx
    · rw [hnewc]
      exact hcaches.parent
    · rw [hkept hxc]
      exact h.links.parent v x hv hx
  · obtain ⟨hv, ⟨-, hrc⟩ | ⟨hx, -⟩⟩ := hchildren hv hx
    · exact hroot hrc
    · exact h.links.root v hv hx
  · rw [hkept hroot]
    exact h.rootName
  · rw [hkept hroot]
    exact h.rootParent
  · rw [hkept hroot]
    exact h.rootInode
  · rcases hcase hv with rfl | ⟨hv, hvc⟩
    · rw [hnewc]
      exact hcaches.fsType
    · rw [hkept hvc]
      exact h.kind v hv
  · rcases hcase hv with rfl | ⟨hv, hvc⟩
    · rw [hnewc, hcaches.children]
      exact List.nodup_nil
    · by_cases hvw : v = w
      · subst hvw
        rw [show (cache' v).children = c :: (cache v).children from hattached.first, List.map_cons,
          List.nodup_cons, hnames hv]
        refine ⟨fun hmem => ?_, h.distinct v hv⟩
        obtain ⟨x, hx, hname⟩ := List.mem_map.mp hmem
        rw [hnewc, hcaches.name] at hname
        exact hnew x hx hname
      · rw [show (cache' v).children = (cache v).children from hattached.old v hvw hvc, hnames hv]
        exact h.distinct v hv
  · obtain ⟨hv, ⟨rfl, rfl⟩ | ⟨hx, hxc⟩⟩ := hchildren hv hx
    · refine ⟨name, ⟨?_, ?_, ?_⟩, Or.inr ?_⟩
      · rw [hnewc, hcaches.name]
      · rw [hnewc, hcaches.inodeNum, hkept hcw.symm]
        exact hn
      · rw [hnewc, hcaches.inodeNum]
        exact hdir
      · rw [hnewc]
        exact hcaches.children
    · obtain ⟨other, hagrees, hleaf⟩ := h.child v x hv hx
      refine ⟨other, ⟨?_, ?_, ?_⟩, ?_⟩
      · rw [hkept hxc]
        exact hagrees.called
      · rw [hkept hxc, hkept (hold hv)]
        exact hagrees.bound
      · rw [hkept hxc]
        exact hagrees.directory
      · by_cases hxw : x = w
        · subst hxw
          exact Or.inl (h.plain_of_proper hv hx hproper hagrees)
        · exact hleaf.imp id (hattached.old x hxw hxc).trans
  · rcases hcase hx with rfl | ⟨hx, hxc⟩
    · rw [hnewc]
      exact hcaches.nodup
    · rw [hblocks hxc]
      exact h.nodup x hx hne
  · rcases hcase hx with rfl | ⟨hx, hxc⟩
    · rw [hnewc] at hb
      refine ⟨hcaches.live b hb, ?_⟩
      rintro rfl
      exact hcaches.fresh b hb h.rootLive
    · rw [hblocks hxc] at hb
      exact ⟨hlive (h.live x b hx hne hb).1, (h.live x b hx hne hb).2⟩
  · rcases hcase hx with rfl | ⟨hx, hxc⟩ <;> rcases hcase hx' with rfl | ⟨hx', hxc'⟩
    · exact absurd rfl hxx
    · rw [hnewc] at hb
      rw [hblocks hxc']
      exact fun hb' => hcaches.fresh b hb (h.live x' b hx' hne' hb').1
    · rw [hblocks hxc] at hb
      rw [hnewc]
      exact fun hb' => hcaches.fresh b hb' (h.live x b hx hne hb).1
    · rw [hblocks hxc] at hb
      rw [hblocks hxc']
      exact h.apart x x' b hx hx' hne hne' hxx hb

omit h hw

/-! ### The current directory -/

/-- The names from the root on. -/
def spelled (cache : Cache) : List ℕ → List Byte
  | [] => []
  | v :: vs => spelled cache vs ++ (cache v).name.chars

structure PwdSound (cache : Cache) (root pwd : ℕ) : Prop where
  way : ∃ vs, Way (fun v => (cache v).children) root pwd vs ∧
    (spelled cache vs).length < VFS_PATH_LENGTH
  proper : Proper cache root pwd

theorem PwdSound.below (hp : PwdSound cache root v) : InCache cache root v := by
  obtain ⟨vs, hway, -⟩ := hp.way
  exact hway.toBelow

theorem PwdSound.of_child (hway : Way (fun v => (cache v).children) root v vs) (hc : c ∈ (cache v).children)
    (hname : (cache c).name = withSlash name) (hplain : Plain name)
    (hfits : (spelled cache vs).length + name.chars.length + 1 < VFS_PATH_LENGTH) :
    PwdSound cache root c := by
  refine ⟨⟨c :: vs, .child hway hc, ?_⟩, Or.inr ⟨name, hplain, hname⟩⟩
  rw [spelled, List.length_append, hname, withSlash, List.length_append, List.length_singleton]
  exact hfits

theorem spelled_congr (hnames : ∀ x ∈ vs, (cache' x).name = (cache x).name) :
    spelled cache' vs = spelled cache vs := by
  induction vs with
  | nil => rfl
  | cons x vs ih =>
    rw [spelled, spelled, hnames x List.mem_cons_self,
      ih fun y hy => hnames y (List.mem_cons_of_mem _ hy)]

namespace CacheSound

include h

/-- No name is empty. -/
theorem length_le_spelled (hway : Way (fun v => (cache v).children) root v vs) :
    vs.length ≤ (spelled cache vs).length := by
  induction hway with
  | root =>
    rw [spelled, List.length_append, h.rootName]
    exact Nat.le_add_left _ _
  | @child v c vs hv hc ih =>
    obtain ⟨name, hagrees, -⟩ := h.child v c hv.toBelow hc
    rw [spelled, List.length_append, List.length_cons, hagrees.called, withSlash, List.length_append,
      List.length_singleton]
    omega

theorem getPath_spelled {fuel : ℕ} (hway : Way (fun v => (cache v).children) root v vs)
    (hfuel : vs.length ≤ fuel) : getPath cache fuel v = some (spelled cache vs) := by
  induction hway generalizing fuel with
  | root =>
    cases fuel with
    | zero => exact absurd hfuel (Nat.not_succ_le_zero _)
    | succ fuel =>
      rw [getPath, if_pos h.rootParent]
      rfl
  | @child v c vs hv hc ih =>
    cases fuel with
    | zero => exact absurd hfuel (Nat.not_succ_le_zero _)
    | succ fuel =>
      have hparent : (cache c).parent = v := h.links.parent v c hv.toBelow hc
      have hne : v ≠ c := by
        rintro rfl
        obtain ⟨ws, rfl⟩ := hv.head
        exact hv.child_notMem h.links hc List.mem_cons_self
      rw [getPath, hparent, if_neg hne, ih (Nat.le_of_succ_le_succ hfuel)]
      rfl

theorem getPath_way (hway : Way (fun v => (cache v).children) root v vs)
    (hfits : (spelled cache vs).length < VFS_PATH_LENGTH) :
    getPath cache rounds v = some (spelled cache vs) := by
  apply h.getPath_spelled hway
  have hle := h.length_le_spelled hway
  simp only [VFS_PATH_LENGTH] at hfits
  simp only [rounds]
  omega

theorem setPwd_eq {vfs : VfsState} (hvfs : vfs.cache = cache) (hp : PwdSound cache root v) :
    setPwd vfs v = pure { vfs with vDirPwd := v } := by
  obtain ⟨vs, hway, hfits⟩ := hp.way
  rw [setPwd, hvfs, updatePwd, h.getPath_way hway hfits]
  simp only [hfits, if_true, pure_bind]

theorem pwd_root : PwdSound cache root root := by
  refine ⟨⟨[root], .root, ?_⟩, Or.inl rfl⟩
  rw [spelled, spelled, h.rootName]
  decide

theorem pwd_parent (hp : PwdSound cache root v) : PwdSound cache root (cache v).parent := by
  obtain ⟨vs, hway, hfits⟩ := hp.way
  cases hway with
  | root =>
    rw [h.rootParent]
    exact hp
  | @child w v vs hway hv =>
    rw [h.links.parent w v hway.toBelow hv]
    refine ⟨⟨vs, hway, ?_⟩, h.proper_of_child hway.toBelow hv⟩
    rw [spelled, List.length_append] at hfits
    omega

theorem name_attach (hv : InCache cache root v) (hw : InCache cache root w)
    (hcaches : Caches cache w path n live live' cache' c d) : (cache' v).name = (cache v).name := by
  have hvc : v ≠ c := fun heq => (hcaches.attached h hw).2.fresh (heq ▸ hv)
  rw [hcaches.cache, addChild_kept hvc]

theorem way_attach (hway : Way (fun v => (cache v).children) root v vs) (hw : InCache cache root w)
    (hcaches : Caches cache w path n live live' cache' c d) :
    Way (fun v => (cache' v).children) root v vs ∧ spelled cache' vs = spelled cache vs :=
  ⟨hway.mono (hcaches.attached h hw).2.subset,
    spelled_congr fun _ hx => h.name_attach (hway.mem_below hx) hw hcaches⟩

theorem pwd_attach (hp : PwdSound cache root v) (hw : InCache cache root w)
    (hcaches : Caches cache w path n live live' cache' c d) : PwdSound cache' root v := by
  obtain ⟨vs, hway, hfits⟩ := hp.way
  obtain ⟨hway', hspelled⟩ := h.way_attach hway hw hcaches
  refine ⟨⟨vs, hway', hspelled ▸ hfits⟩, hp.proper.imp id ?_⟩
  rintro ⟨name, hplain, hcalled⟩
  exact ⟨name, hplain, (h.name_attach hp.below hw hcaches).trans hcalled⟩

theorem pwd_remove (hp : PwdSound cache root v) (hc : c ∈ (cache v).children) :
    PwdSound (removeFromLlist cache v c) root v := by
  have hname (x : ℕ) : ((removeFromLlist cache v c) x).name = (cache x).name := by
    rw [removeFromLlist_apply]
  obtain ⟨vs, hway, hfits⟩ := hp.way
  refine ⟨⟨vs, hway.detach ?_ (hway.child_notMem h.links hc), ?_⟩, hp.proper.imp id ?_⟩
  · intro u y hy hyc
    rw [removeFromLlist_apply]
    split_ifs with huv
    · subst huv
      exact (List.mem_erase_of_ne hyc).mpr hy
    · exact hy
  · rw [spelled_congr fun x _ => hname x]
    exact hfits
  · rintro ⟨name, hplain, hcalled⟩
    exact ⟨name, hplain, (hname v).trans hcalled⟩

end CacheSound

end Invariant

/-! ## The commands -/

section Commands

variable {dev : Mount} {cache : Cache} {root v c x : ℕ} {h h' : Heap ℕ Machine} {vfs : VfsState}
  {name path : CString} {parent n : Word} {b : Bool}

structure SystemSound (dev : Mount) (h : Heap ℕ Machine) (vfs : VfsState) : Prop where
  hierarchy : Hierarchy dev.bs h.data.fs.disk
  cache : CacheSound dev.bs h.data.fs.disk h.live vfs.cache vfs.vDirRoot
  pwd : PwdSound vfs.cache vfs.vDirRoot vfs.vDirPwd

namespace SystemSound

variable (hs : SystemSound dev h vfs)

include hs

theorem reachable : Reachable dev.bs h.data.fs.disk (vfs.cache vfs.vDirPwd).inodeNum :=
  hs.cache.reachable hs.pwd.below

theorem kind : (vfs.cache vfs.vDirPwd).fsType = .minix3 := hs.cache.kind _ hs.pwd.below

theorem agrees : CacheAgrees dev.bs h.data.fs.disk vfs := by
  have ht := hs.hierarchy.toTree
  refine ⟨hs.cache.distinct, fun v c hv hc => ?_, ht.reachable hs.reachable⟩
  obtain ⟨name, hagrees, -⟩ := hs.cache.child v c hv hc
  exact ⟨(ht.reachable (hs.cache.reachable (.child hv hc))).1, name, hagrees⟩

theorem same (hlive : h.live ⊆ h'.live) (hat : At h.data.fs h'.data) : SystemSound dev h' vfs := by
  have hfs : h'.data.fs = h.data.fs := hat
  refine ⟨?_, ?_, hs.pwd⟩
  · rw [hfs]
    exact hs.hierarchy
  · rw [hfs]
    exact hs.cache.keep hlive fun _ _ _ _ _ hagrees => hagrees

theorem adds (hlive : h.live ⊆ h'.live)
    (ha : Adds dev.bs h.data.fs.disk parent n name b h'.data.fs.disk) : SystemSound dev h' vfs :=
  ⟨ha.hierarchy, hs.cache.adds hs.hierarchy.toTree hlive ha, hs.pwd⟩

/-- A file that is removed is no directory of the cache. -/
theorem drops_file (hlive : h.live ⊆ h'.live)
    (hd : Drops dev.bs h.data.fs.disk parent n name false h'.data.fs.disk) :
    SystemSound dev h' vfs := by
  refine ⟨hd.hierarchy, hs.cache.drops hs.hierarchy.toTree hlive hd fun v hv hvn => ?_, hs.pwd⟩
  have hdir := (hs.hierarchy.reachable (hs.cache.reachable hv)).2
  have hfile := hd.kind
  rw [← hvn, isDirectory, hdir] at hfile
  cases hfile

end SystemSound

theorem findChild_some (hfind : findChild cache v path = some c) :
    c ∈ (cache v).children ∧ (cache c).name = path := by
  refine ⟨List.mem_of_find?_eq_some hfind, ?_⟩
  have hname := List.find?_some hfind
  exact (of_decide_eq_true hname).symm

theorem findChild_none (hfind : findChild cache v path = none) (hc : c ∈ (cache v).children) :
    (cache c).name ≠ path := by
  have hname := List.find?_eq_none.mp hfind c hc
  exact fun heq => hname (decide_eq_true heq.symm)

theorem processed_eq (hne : path ≠ empty) : processed path = withSlash (pathToMinix3Path path) := by
  have hlength : ¬ path.chars.length < 1 := fun hlt =>
    hne (eq_of_chars (List.length_eq_zero_iff.mp (Nat.lt_one_iff.mp hlt)))
  rw [processed, if_neg hlength]
  by_cases hlast : path.chars.getLast? = some slash
  · rw [if_neg (not_not.mpr hlast)]
    apply eq_of_chars
    rw [withSlash, pathToMinix3Path, if_pos hlast]
    exact (List.dropLast_append_getLast? _ hlast).symm
  · have hkept : pathToMinix3Path path = path := if_neg hlast
    rw [if_pos hlast, hkept]
    rfl

/-! ### `vfs_touch`, `vfs_rm` and `vfs_mkdir` -/

namespace SystemSound

variable (hs : SystemSound dev h vfs)

include hs

theorem touch (hlen : name.chars.length ≤ 58) (hmeets : (Command.touch name).Meets dev h.data.fs vfs) :
    Returns ((Command.touch name).run dev vfs) h fun vfs' h' => SystemSound dev h' vfs' := by
  have hfits : name.chars.length < MX3_NAME_LEN := Nat.lt_of_le_of_lt hlen (by decide)
  simp only [Command.run, vfsTouch, hs.kind]
  apply Returns.bind (Q := fun _ h' => SystemSound dev h' vfs)
  · apply ((mstrcpy_ensures hfits).returns rfl).bind
    rintro _ h₁ ⟨hlive₁, hcopy, hat₁⟩
    rw [hcopy]
    apply ((touchReg_adds hs.hierarchy hs.reachable
      ((pathToMinix3Path_length name).1.trans_lt hfits) hmeets).returns hat₁).bind
    rintro r h₂ ⟨hlive₂, hcase⟩
    apply returns_pure
    rcases hcase with ⟨-, -, hat₂⟩ | ⟨-, n, ha⟩
    · exact hs.same (hlive₁.trans hlive₂) hat₂
    · exact hs.adds (hlive₁.trans hlive₂) ha
  · exact fun _ _ hs' => returns_pure _ hs'

theorem rm (hlen : name.chars.length ≤ 58) (hmeets : (Command.rm name).Meets dev h.data.fs vfs) :
    Returns ((Command.rm name).run dev vfs) h fun vfs' h' => SystemSound dev h' vfs' := by
  have hfits : name.chars.length < MX3_NAME_LEN := Nat.lt_of_le_of_lt hlen (by decide)
  simp only [Command.run, vfsRm, hs.kind]
  apply Returns.bind (Q := fun _ h' => SystemSound dev h' vfs)
  · apply ((mstrcpy_ensures hfits).returns rfl).bind
    rintro _ h₁ ⟨hlive₁, hcopy, hat₁⟩
    rw [hcopy]
    apply ((rm_drops hs.hierarchy hs.reachable hmeets).returns hat₁).bind
    rintro r h₂ ⟨hlive₂, hcase⟩
    apply returns_pure
    rcases hcase with ⟨-, -, hat₂⟩ | ⟨-, n, hd⟩
    · exact hs.same (hlive₁.trans hlive₂) hat₂
    · exact hs.drops_file (hlive₁.trans hlive₂) hd
  · exact fun _ _ hs' => returns_pure _ hs'

/-- A child is added to the current directory, or the cache stays. -/
theorem attached {cache' : Cache} (hlive : h.live ⊆ h'.live) (hat : At h.data.fs h'.data)
    (hnew : ¬ isPathCached vfs.cache vfs.vDirPwd (withSlash name))
    (hn : BoundTo dev.bs h.data.fs.disk (vfs.cache vfs.vDirPwd).inodeNum name n)
    (hdir : isDirectory dev.bs h.data.fs.disk n = true) {d : VDirectory}
    (hcaches : Caches vfs.cache vfs.vDirPwd (withSlash name) n h.live h'.live cache' c d) :
    SystemSound dev h' { vfs with cache := cache' } := by
  have hfs : h'.data.fs = h.data.fs := hat
  have hnone : findChild vfs.cache vfs.vDirPwd (withSlash name) = none := by
    rwa [isPathCached, Option.not_isSome_iff_eq_none] at hnew
  refine ⟨?_, ?_, hs.cache.pwd_attach hs.pwd hs.pwd.below hcaches⟩
  · rw [hfs]
    exact hs.hierarchy
  · rw [hfs]
    exact hs.cache.attach hs.pwd.below hs.pwd.proper hcaches hlive hn hdir
      fun x hx => findChild_none hnone hx

theorem mkdir (hlen : name.chars.length ≤ 58) (hmeets : (Command.mkdir name).Meets dev h.data.fs vfs) :
    Returns ((Command.mkdir name).run dev vfs) h fun vfs' h' => SystemSound dev h' vfs' := by
  obtain ⟨hne, hcan, hnew⟩ := hmeets
  have hfits : name.chars.length < MX3_NAME_LEN := Nat.lt_of_le_of_lt hlen (by decide)
  have hshort : (pathToMinix3Path name).chars.length + 1 < MX3_NAME_LEN := by
    have hle := (pathToMinix3Path_length name).1
    simp only [MX3_NAME_LEN]
    omega
  simp only [Command.run, vfsMkdir, hs.kind]
  apply Returns.bind (Q := fun cache' h' => SystemSound dev h' { vfs with cache := cache' })
  · apply ((mstrcpy_ensures hfits).returns rfl).bind
    rintro _ h₁ ⟨hlive₁, hcopy, hat₁⟩
    rw [hcopy]
    apply ((mkdir_meets_adds hs.hierarchy hs.reachable (Nat.lt_of_succ_lt hshort) hcan).returns
      hat₁).bind
    rintro r h₂ ⟨hlive₂, hcase⟩
    have hs₂ : SystemSound dev h₂ vfs := by
      rcases hcase with ⟨-, -, hat₂⟩ | ⟨-, n, ha⟩
      · exact hs.same (hlive₁.trans hlive₂) hat₂
      · exact hs.adds (hlive₁.trans hlive₂) ha
    have hat₂ : At h₂.data.fs h₂.data := rfl
    apply (cacheMade_returns hat₂ hs₂.kind hs₂.hierarchy.toTree hs₂.reachable
      hshort).weaken
    rintro cache' h₃ ⟨hlive₃, hat₃, ⟨rfl, -⟩ | ⟨n, c, d, hn, hdir, hcaches⟩⟩
    · exact hs₂.same hlive₃ hat₃
    · rw [processed_eq hne] at hcaches
      exact hs₂.attached hlive₃ hat₃ hnew hn hdir hcaches
  · exact fun _ _ hs' => returns_pure _ hs'

end SystemSound

/-! ### `vfs_rmdir` -/

/-- When the current directory has no child with the name, no directory of the cache has the inode
that is removed. -/
theorem CacheSound.not_removed {live : Finset ℕ} {disk disk' : Mem} {bs : ℕ} {pwd : ℕ}
    (hc : CacheSound bs disk live cache root) (hp : PwdSound cache root pwd)
    (hh : Hierarchy bs disk) (hd : Drops bs disk (cache pwd).inodeNum n name b disk')
    (hnone : ∀ x ∈ (cache pwd).children, (cache x).name ≠ withSlash name) (hv : InCache cache root v) :
    (cache v).inodeNum ≠ n := by
  induction hv with
  | root =>
    rw [hc.rootInode]
    rintro rfl
    exact hh.top _ name (hc.reachable hp.below) hd.plain hd.bound
  | @child u v hu hvu ih =>
    rintro rfl
    obtain ⟨other, hagrees, -⟩ := hc.child u v hu hvu
    obtain ⟨hparent, rfl⟩ := hd.only _ (hc.reachable hu) ih other hagrees.bound
    obtain rfl := hc.proper_unique hh hu (hc.proper_of_child hu hvu) hp.below hp.proper hparent
    exact hnone v hvu hagrees.called

/-- The blocks of a directory without children are released. -/
theorem freeDirectoryLlistNode_returns (hnodup : ((cache v).blocks v).Nodup)
    (hlive : ∀ x ∈ (cache v).blocks v, x ∈ h.live) :
    Returns (freeDirectoryLlistNode cache v) h fun _ h' => h'.data = h.data ∧
      ∀ x ∈ h.live, x ∉ (cache v).blocks v → x ∈ h'.live := by
  rw [freeDirectoryLlistNode]
  split
  · exact returns_pure _ ⟨rfl, fun _ hx _ => hx⟩
  have hnodup' := List.nodup_reverse.mpr hnodup
  simp only [VDirectory.blocks, List.reverse_cons, List.reverse_nil, List.nil_append,
    List.cons_append, List.nodup_cons] at hnodup'
  simp only [VDirectory.blocks, List.forall_mem_cons] at hlive
  obtain ⟨hl1, hl2, hl3, hl4, -⟩ := hlive
  apply ((freed_nil h).release hl1 List.not_mem_nil).bind
  intro _ h₁ hf₁
  apply (hf₁.release hl2 hnodup'.2.2.1).bind
  intro _ h₂ hf₂
  apply (hf₂.release hl3 hnodup'.2.1).bind
  intro _ h₃ hf₃
  apply (hf₃.release hl4 hnodup'.1).weaken
  intro _ h₄ hf₄
  refine ⟨hf₄.data, fun x hx hxl => hf₄.live x hx fun hmem => hxl ?_⟩
  exact List.mem_reverse.mp hmem

/-- The disk has lost the directory, and so has the cache. -/
theorem SystemSound.drops_directory {cache' : Cache} (hs : SystemSound dev h vfs)
    (hd : Drops dev.bs h.data.fs.disk (vfs.cache vfs.vDirPwd).inodeNum n name true h'.data.fs.disk)
    (hcache : CacheSound dev.bs h.data.fs.disk h'.live cache' vfs.vDirRoot)
    (hpwd : PwdSound cache' vfs.vDirRoot vfs.vDirPwd)
    (hinode : (cache' vfs.vDirPwd).inodeNum = (vfs.cache vfs.vDirPwd).inodeNum)
    (hnone : ∀ x ∈ (cache' vfs.vDirPwd).children, (cache' x).name ≠ withSlash name) :
    SystemSound dev h' { vfs with cache := cache' } := by
  rw [← hinode] at hd
  exact ⟨hd.hierarchy, hcache.drops hs.hierarchy.toTree (Finset.Subset.refl _) hd fun v hv =>
    hcache.not_removed hpwd hs.hierarchy hd hnone hv, hpwd⟩

theorem SystemSound.rmdir (hs : SystemSound dev h vfs) (hlen : name.chars.length ≤ 58)
    (hmeets : (Command.rmdir name).Meets dev h.data.fs vfs) :
    Returns ((Command.rmdir name).run dev vfs) h fun vfs' h' => SystemSound dev h' vfs' := by
  obtain ⟨hne, hdot⟩ := hmeets
  have hfits : name.chars.length < MX3_NAME_LEN := Nat.lt_of_le_of_lt hlen (by decide)
  have hshort : (pathToMinix3Path name).chars.length + 1 < VFS_FNAME_LENGTH := by
    have hle := (pathToMinix3Path_length name).1
    simp only [VFS_FNAME_LENGTH]
    omega
  have hcache := hs.cache
  simp only [Command.run, vfsRmdir, hs.kind]
  apply Returns.bind (Q := fun cache' h' => SystemSound dev h' { vfs with cache := cache' })
  swap
  · exact fun _ _ hs' => returns_pure _ hs'
  apply ((mstrcpy_ensures hfits).returns rfl).bind
  rintro _ h₁ ⟨hlive₁, hcopy, hat₁⟩
  rw [hcopy]
  apply ((rmdir_drops hs.hierarchy hs.reachable hdot).returns hat₁).bind
  rintro r h₂ ⟨hlive₂, ⟨hr, hat₂⟩ | ⟨rfl, n, hd⟩⟩
  · rw [if_neg hr]
    exact returns_pure _ (hs.same (hlive₁.trans hlive₂) hat₂)
  rw [if_pos rfl, removeFromCachedTree]
  have hat₂ : At h₂.data.fs h₂.data := rfl
  apply ((mstrcpy_ensures (hfits.trans (by decide))).returns hat₂).bind
  rintro _ h₃ ⟨hlive₃, hcopy, hat₃⟩
  rw [hcopy]
  apply ((processPath_ensures hshort).returns hat₃).bind
  rintro _ h₄ ⟨hlive₄, hpath, hat₄⟩
  rw [hpath, processed_eq hne]
  have hlive : h.live ⊆ h₄.live := ((hlive₁.trans hlive₂).trans hlive₃).trans hlive₄
  have hfs : h₄.data.fs = h₂.data.fs := hat₄
  rw [← hfs] at hd
  cases hfind : findChild vfs.cache vfs.vDirPwd (withSlash (pathToMinix3Path name)) with
  | none =>
    refine returns_pure _ (hs.drops_directory hd ?_ hs.pwd rfl fun x hx => findChild_none hfind hx)
    exact hcache.keep hlive fun _ _ _ _ _ hagrees => hagrees
  | some c =>
    obtain ⟨hc, hname⟩ := findChild_some hfind
    have hcin : InCache vfs.cache vfs.vDirRoot c := .child hs.pwd.below hc
    have hcroot := hcache.child_ne_root hs.pwd.below hc
    have hblocks : ((removeFromLlist vfs.cache vfs.vDirPwd c) c).blocks c = (vfs.cache c).blocks c := by
      rw [removeFromLlist_apply]
      rfl
    have hfree : Returns (freeDirectoryLlistNode (removeFromLlist vfs.cache vfs.vDirPwd c) c) h₄
        fun _ h' => h'.data = h₄.data ∧ ∀ x ∈ h₄.live,
          x ∉ ((removeFromLlist vfs.cache vfs.vDirPwd c) c).blocks c → x ∈ h'.live :=
      freeDirectoryLlistNode_returns (hblocks ▸ hcache.nodup c hcin hcroot) fun x hx =>
        hlive (hcache.live c x hcin hcroot (hblocks ▸ hx)).1
    apply hfree.bind
    rintro _ h₅ ⟨hdata, hlive₅⟩
    rw [hblocks] at hlive₅
    rw [← hdata] at hd
    apply returns_pure
    refine hs.drops_directory hd (hcache.remove hs.pwd.below hc fun b hb hbc =>
      hlive₅ b (hlive hb) hbc) (hcache.pwd_remove hs.pwd hc) ?_ fun x hx hx' => ?_
    · rw [removeFromLlist_apply]
    · rw [removeFromLlist_apply] at hx hx'
      rw [if_pos rfl] at hx
      obtain rfl := hcache.child_unique hs.pwd.below (List.mem_of_mem_erase hx) hc
        (hx'.trans hname.symm)
      exact (List.Nodup.of_map _ (hcache.distinct _ hs.pwd.below)).not_mem_erase hx

/-! ### `vfs_cd` -/

namespace SystemSound

variable (hs : SystemSound dev h vfs)

include hs

theorem setPwd (hv : PwdSound vfs.cache vfs.vDirRoot v) :
    Returns (Vfs.setPwd vfs v) h fun vfs' h' => SystemSound dev h' vfs' := by
  rw [hs.cache.setPwd_eq rfl hv]
  exact returns_pure _ ⟨hs.hierarchy, hs.cache, hv⟩

theorem cdIntoCachedPath {vs : List ℕ}
    (hway : Way (fun v => (vfs.cache v).children) vfs.vDirRoot vfs.vDirPwd vs) (hplain : Plain name)
    (hfits : (spelled vfs.cache vs).length + name.chars.length + 1 < VFS_PATH_LENGTH) :
    Returns (Vfs.cdIntoCachedPath vfs (withSlash name)) h fun vfs' h' => SystemSound dev h' vfs' := by
  rw [Vfs.cdIntoCachedPath]
  cases hfind : findChild vfs.cache vfs.vDirPwd (withSlash name) with
  | none => exact returns_pure _ hs
  | some c =>
    obtain ⟨hc, hname⟩ := findChild_some hfind
    exact hs.setPwd (PwdSound.of_child hway hc hname hplain hfits)

theorem cd (hlen : path.chars.length ≤ 58) (hmeets : (Command.cd path).Meets dev h.data.fs vfs) :
    Returns ((Command.cd path).run dev vfs) h fun vfs' h' => SystemSound dev h' vfs' := by
  rw [Command.run, vfsCd]
  by_cases hdot : path = dot
  · rw [if_pos hdot]
    exact returns_pure _ hs
  by_cases hempty : path = empty
  · rw [if_neg hdot, if_pos hempty]
    exact hs.setPwd hs.cache.pwd_root
  by_cases hdotDot : path = dotDot
  · rw [if_neg hdot, if_neg hempty, if_pos hdotDot]
    exact hs.setPwd (hs.cache.pwd_parent hs.pwd)
  rw [if_neg hdot, if_neg hempty, if_neg hdotDot]
  obtain ⟨hplain, hfits⟩ :=
    ((hmeets.resolve_left hdot).resolve_left hempty).resolve_left hdotDot
  obtain ⟨vs, hway, hshort⟩ := hs.pwd.way
  have hfits := hfits _ (hs.cache.getPath_way hway hshort)
  have hle := (pathToMinix3Path_length path).1
  have hcopy : path.chars.length < VFS_PATH_LENGTH := Nat.lt_of_le_of_lt hlen (by decide)
  have hroom : (pathToMinix3Path path).chars.length + 1 < VFS_PATH_LENGTH := by
    simp only [VFS_PATH_LENGTH]
    omega
  have hname : (processed path).chars.length < MX3_NAME_LEN := by
    apply processed_length
    simp only [MX3_NAME_LEN]
    omega
  apply ((mstrcpy_ensures hcopy).returns rfl).bind
  rintro _ h₁ ⟨hlive₁, hpath, hat₁⟩
  rw [hpath]
  apply ((processPath_ensures hroom).returns hat₁).bind
  rintro _ h₂ ⟨hlive₂, hpath, hat₂⟩
  rw [hpath]
  have hs₂ := hs.same (hlive₁.trans hlive₂) hat₂
  by_cases hcached : isPathCached vfs.cache vfs.vDirPwd (processed path) = true
  · rw [if_pos hcached, processed_eq hempty]
    exact hs₂.cdIntoCachedPath hway hplain hfits
  rw [if_neg hcached]
  have hat : At h₂.data.fs h₂.data := rfl
  apply (cachePath_returns hat hs₂.kind hs₂.hierarchy.toTree hs₂.reachable hname).bind
  rintro ⟨retval, cache'⟩ h₃ ⟨hlive₃, hat₃, ⟨hr, rfl, -⟩ | ⟨rfl, n, c, d, hn, hdir, hcaches⟩⟩
  · dsimp only
    rw [if_pos hr]
    exact returns_pure _ (hs₂.same hlive₃ hat₃)
  · rw [pathToMinix3Path_processed] at hn
    rw [processed_eq hempty] at hcaches hcached ⊢
    dsimp only
    rw [if_neg (not_not.mpr rfl)]
    have hs₃ := hs₂.attached hlive₃ hat₃ hcached hn hdir hcaches
    obtain ⟨hway₃, hspelled⟩ := hs₂.cache.way_attach hway hs₂.pwd.below hcaches
    exact hs₃.cdIntoCachedPath hway₃ hplain (hspelled ▸ hfits)

end SystemSound

theorem SystemSound.command (hs : SystemSound dev h vfs) (c : Command) (hgiven : c.Given)
    (hmeets : c.Meets dev h.data.fs vfs) :
    Returns (c.run dev vfs) h fun vfs' h' => SystemSound dev h' vfs' := by
  cases c with
  | cd path => exact hs.cd hgiven hmeets
  | mkdir dirname => exact hs.mkdir hgiven hmeets
  | rmdir dirname => exact hs.rmdir hgiven hmeets
  | touch fname => exact hs.touch hgiven hmeets
  | rm fname => exact hs.rm hgiven hmeets

/-! ### `vfs_mount_minix3` -/

theorem cacheSound_single {bs : ℕ} {disk : Mem} {live : Finset ℕ} {d : VDirectory}
    (hd : cache root = d) (hname : d.name.chars = [slash]) (hparent : d.parent = root)
    (hinode : d.inodeNum = 1) (hkind : d.fsType = .minix3) (hchildren : d.children = [])
    (hlive : root ∈ live) : CacheSound bs disk live cache root := by
  subst hd
  have hsingle {v : ℕ} (hv : InCache cache root v) : v = root := by
    induction hv with
    | root => rfl
    | child _ hc ih =>
      subst ih
      rw [hchildren] at hc
      cases hc
  have hnone {v c : ℕ} (hv : InCache cache root v) : c ∉ (cache v).children := by
    rw [hsingle hv, hchildren]
    exact List.not_mem_nil
  refine ⟨⟨fun v c hv hc => absurd hc (hnone hv), fun v hv => hnone hv⟩, hname, hparent, hinode,
    fun v hv => ?_, fun v hv => ?_, fun v c hv hc => absurd hc (hnone hv), hlive,
    fun c hc hne => absurd (hsingle hc) hne, fun c b hc hne => absurd (hsingle hc) hne,
    fun c c' b hc _ hne => absurd (hsingle hc) hne⟩
  · rw [hsingle hv]
    exact hkind
  · rw [hsingle hv, hchildren]
    exact List.nodup_nil

theorem vfsMounted_returns (mx3_block_dev : BitVec 32) (cache₀ : Cache)
    (hh : Hierarchy dev.bs h.data.fs.disk) :
    Returns (vfsMounted dev mx3_block_dev cache₀) h fun vfs h' =>
      At h.data.fs h'.data ∧ SystemSound dev h' vfs := by
  rw [vfsMounted]
  apply Returns.bind (Q := fun vfs h' => At h.data.fs h'.data ∧ vfs.vDirRoot ∈ h'.live ∧
    vfs.vDirPwd = vfs.vDirRoot ∧ (vfs.cache vfs.vDirRoot).name.chars = [slash] ∧
    (vfs.cache vfs.vDirRoot).parent = vfs.vDirRoot ∧ (vfs.cache vfs.vDirRoot).children = [])
  · rw [vfsInit]
    apply (kcalloc_returns rfl).bind
    rintro root h₁ ⟨-, hroot, -, hat₁⟩
    apply (kcalloc_returns hat₁).bind
    rintro children_llist h₂ ⟨-, -, hlive₂, hat₂⟩
    apply (kcalloc_returns hat₂).bind
    rintro vfs_pwd h₃ ⟨-, -, hlive₃, hat₃⟩
    have hself : Function.update cache₀ root (rootDirectory root children_llist) root =
        rootDirectory root children_llist := Function.update_self _ _ _
    have hpath : getPath (Function.update cache₀ root (rootDirectory root children_llist)) rounds
        root = some [slash] := by
      rw [show rounds = 2 ^ 32 + 1 from rfl, getPath, hself]
      exact if_pos rfl
    rw [Vfs.setPwd, updatePwd, hpath]
    refine returns_pure _ ⟨hat₃, hlive₃ (hlive₂ hroot), rfl, ?_, ?_, ?_⟩
    · dsimp only
      rw [hself]
      rfl
    · dsimp only
      rw [hself]
      rfl
    · dsimp only
      rw [hself]
      rfl
  · rintro vfs h₁ ⟨hat₁, hroot, hpwd, hname, hparent, hchildren⟩
    rw [vfsMountMinix3]
    apply (kcalloc_returns hat₁).bind
    rintro vnode h₂ ⟨-, -, hlive₂, hat₂⟩
    apply (kcalloc_returns hat₂).bind
    rintro mx3_root h₃ ⟨hnew₃, hmem₃, hlive₃, hat₃⟩
    apply ((getInode_ensures 1).returns hat₃).bind
    rintro _ h₄ ⟨hlive₄, rfl, hat₄⟩
    apply (returns_release (hlive₄ hmem₃)).bind
    rintro _ _ rfl
    have hfs : h₄.data.fs = h.data.fs := hat₄
    have hlive : vfs.vDirRoot ∈ h₄.live.erase mx3_root := by
      refine Finset.mem_erase.mpr ⟨?_, hlive₄ (hlive₃ (hlive₂ hroot))⟩
      rintro rfl
      exact hnew₃ (hlive₂ hroot)
    have hcache : CacheSound dev.bs h₄.data.fs.disk (h₄.live.erase mx3_root)
        (Function.update vfs.cache vfs.vDirRoot { vfs.cache vfs.vDirRoot with
          whichDev := mx3_block_dev
          fsType := .minix3
          inodeNum := 1
          vInode := some ⟨(Minix3.getInode dev.bs h.data.fs.disk 1).mode,
            (Minix3.getInode dev.bs h.data.fs.disk 1).uid,
            (Minix3.getInode dev.bs h.data.fs.disk 1).gid⟩
          vNode := vnode }) vfs.vDirRoot :=
      cacheSound_single (Function.update_self _ _ _) hname hparent rfl rfl hchildren hlive
    refine returns_pure _ ⟨hat₄, ?_, hcache, ?_⟩
    · rw [hfs]
      exact hh
    · rw [hpwd]
      exact hcache.pwd_root

end Commands

/-- In every run of commands that meet the condition the cache agrees with the disk, and every
further one returns and leaves it so. -/
theorem cache_agrees (dev : Mount) (mx3_block_dev : BitVec 32) (cache₀ : Cache)
    (h₀ : Heap ℕ Machine) (hh : Hierarchy dev.bs h₀.data.fs.disk) (s₀ s : System)
    (hmount : vfsMounted dev mx3_block_dev cache₀ h₀ = .ok (s₀.vfs, s₀.heap))
    (hrun : Execution (CommandStep dev) s₀ s) :
    CacheAgrees dev.bs s.heap.data.fs.disk s.vfs ∧
    ∀ c : Command, c.Given → c.Meets dev s.heap.data.fs s.vfs →
      ∃ vfs h, c.run dev s.vfs s.heap = .ok (vfs, h) ∧ CacheAgrees dev.bs h.data.fs.disk vfs := by
  have hs : SystemSound dev s.heap s.vfs := by
    apply hrun.invariant (I := fun s => SystemSound dev s.heap s.vfs)
    · rintro s c t hs ⟨hgiven, hmeets, hcall⟩
      exact (hs.command c hgiven hmeets).result hcall
    · exact ((vfsMounted_returns mx3_block_dev cache₀ hh).result hmount).2
  refine ⟨hs.agrees, fun c hgiven hmeets => ?_⟩
  obtain ⟨vfs, h, hcall, hs'⟩ := hs.command c hgiven hmeets
  exact ⟨vfs, h, hcall, hs'.agrees⟩

/-! The commands on a freshly formatted device. -/

section Root

def emptyCache : Cache := fun _ => rootDirectory 0 0

/-- The system behind `op`. -/
def systemAfter (op : Op VfsState) (h : Heap ℕ Machine) : System :=
  ⟨after op h, (outcome op h).getD ⟨emptyCache, 0, 0⟩⟩

def mountedSystem : System := systemAfter (vfsMounted smallMount 0 emptyCache) (rootHeap false)

def System.command (s : System) (c : Command) : System := systemAfter (c.run smallMount s.vfs) s.heap

theorem systemAfter_ok {op : Op VfsState} {h : Heap ℕ Machine} (hop : (outcome op h).isSome) :
    op h = .ok ((systemAfter op h).vfs, (systemAfter op h).heap) := by
  obtain ⟨vfs, hvfs⟩ := Option.isSome_iff_exists.mp hop
  rw [systemAfter, hvfs]
  exact outcome_some hvfs

theorem mountedSystem_ok : vfsMounted smallMount 0 emptyCache (rootHeap false) =
    .ok (mountedSystem.vfs, mountedSystem.heap) := systemAfter_ok (by decide +kernel)

theorem cache_agrees_root : CacheAgrees 1024
    (mountedSystem.command (.mkdir fileName)).heap.data.fs.disk
    (mountedSystem.command (.mkdir fileName)).vfs := by
  have hfs : mountedSystem.heap.data.fs = (rootHeap false).data.fs :=
    ((vfsMounted_returns 0 emptyCache root_hierarchy).result mountedSystem_ok).1
  have hcan : CanTouch 1024 mountedSystem.heap.data.fs 1 1 := by
    rw [hfs]
    exact root_canTouch.mono (by decide)
  have hpwd : (mountedSystem.vfs.cache mountedSystem.vfs.vDirPwd).inodeNum = 1 := by decide +kernel
  have hstep : CommandStep smallMount mountedSystem (.mkdir fileName)
      (mountedSystem.command (.mkdir fileName)) := by
    have hlen : fileName.chars.length ≤ 58 := by decide
    refine ⟨hlen, ⟨by decide, Or.inr ?_, by decide +kernel⟩, systemAfter_ok (by decide +kernel)⟩
    rw [hpwd]
    exact ⟨hcan, by decide⟩
  exact (cache_agrees smallMount 0 emptyCache (rootHeap false) root_hierarchy mountedSystem _
    mountedSystem_ok (.single hstep)).1

/-- `mkdir` of the same name twice, `rmdir`, and `cd` to the name. -/
theorem removed_directory_entered : ∃ s₀ s₁ s₂ s₃ s₄ : System,
    Hierarchy 1024 (rootHeap false).data.fs.disk ∧
    vfsMounted smallMount 0 emptyCache (rootHeap false) = .ok (s₀.vfs, s₀.heap) ∧
    (Command.mkdir fileName).run smallMount s₀.vfs s₀.heap = .ok (s₁.vfs, s₁.heap) ∧
    (Command.mkdir fileName).run smallMount s₁.vfs s₁.heap = .ok (s₂.vfs, s₂.heap) ∧
    ¬ CacheAgrees 1024 s₂.heap.data.fs.disk s₂.vfs ∧
    (Command.rmdir fileName).run smallMount s₂.vfs s₂.heap = .ok (s₃.vfs, s₃.heap) ∧
    (Command.cd fileName).run smallMount s₃.vfs s₃.heap = .ok (s₄.vfs, s₄.heap) ∧
    ¬ InUse 1024 s₄.heap.data.fs.disk (s₄.vfs.cache s₄.vfs.vDirPwd).inodeNum := by
  refine ⟨mountedSystem, mountedSystem.command (.mkdir fileName),
    (mountedSystem.command (.mkdir fileName)).command (.mkdir fileName),
    ((mountedSystem.command (.mkdir fileName)).command (.mkdir fileName)).command (.rmdir fileName),
    (((mountedSystem.command (.mkdir fileName)).command (.mkdir fileName)).command
      (.rmdir fileName)).command (.cd fileName), root_hierarchy, mountedSystem_ok,
    systemAfter_ok (by decide +kernel), systemAfter_ok (by decide +kernel), fun hbad => ?_,
    systemAfter_ok (by decide +kernel), systemAfter_ok (by decide +kernel), ?_⟩
  · exact absurd (hbad.distinct _ .root) (by decide +kernel)
  · rintro ⟨-, huse⟩
    exact absurd huse (by decide +kernel)

end Root

end Vfs
