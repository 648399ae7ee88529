import DucreuOS.ClearedEntries

/-! # An inode and its entry are removed

What `minix3_rm` and `minix3_rmdir` have in common: the zones and the inode are given back, and the
entry in the parent directory is cleared. -/
namespace Minix3

open ByteMemory

section GivenBack

variable {bs : ℕ} {disk disk' disk₁ : Mem} {n : Word} {S : Set Word}

/-- The files are those that were there, and they name the same zones. -/
theorem Consistent.of_nodes (hc : Consistent bs disk) (hl : ImageLayout bs disk')
    (huse : ∀ m, InUse bs disk' m → InUse bs disk m)
    (hnodes : ∀ m, InUse bs disk' m → ∀ p : Node, p.In bs →
      nodeZone bs disk' (getInode bs disk' m) p = nodeZone bs disk (getInode bs disk m) p)
    (hmarks : ∀ m, InUse bs disk' m → MarkedZones bs disk' (getInode bs disk' m)) :
    Consistent bs disk' where
  layout := hl
  distinct m hm a b ha hb := by
    rw [hnodes m hm a ha, hnodes m hm b hb]
    exact hc.distinct m (huse m hm) a b ha hb
  marked := hmarks
  apart m n hm hn hne a b ha hb := by
    rw [hnodes m hm a ha, hnodes n hn b hb]
    exact hc.apart m n (huse m hm) (huse n hn) hne a b ha hb

/-- File `n` and the zones of `S` are not in use any more. -/
structure GivenBack (bs : ℕ) (disk : Mem) (n : Word) (S : Set Word) (disk' : Mem) : Prop where
  super : getSuperblock disk' = getSuperblock disk
  inUse (m : Word) : InUse bs disk' m ↔ InUse bs disk m ∧ m ≠ n
  linked (m : Word) : InUse bs disk m → m ≠ n → Linked bs disk disk' m 0
  marked (y : Word) : Marked bs disk' y ↔ Marked bs disk y ∧ y ∉ S

/-- The inode is given back after the zones, which are no zones of another file. -/
theorem Consistent.giveBack (hc : Consistent bs disk) (hn : InUse bs disk n)
    (hf : Freed bs S disk disk₁) (hS : ∀ m, InUse bs disk m → m ≠ n → ∀ p : Node, p.In bs →
      nodeZone bs disk (getInode bs disk m) p ≠ 0 → nodeZone bs disk (getInode bs disk m) p ∉ S) :
    GivenBack bs disk n S (setInodeUnoccupied bs disk₁ n) := by
  have hl := hc.layout
  have hsuper := hf.super hl.map
  have hl₁ := hl.congr hsuper
  have hn₁ := (hf.inUse hl).mpr hn
  have hmap := setInodeUnoccupied_map hl₁ hn₁
  refine ⟨hmap.super.trans hsuper, fun m => ?_, fun m hm hne => ?_, fun y => ?_⟩
  · rw [setInodeUnoccupied_inUse hl₁ hn₁, hf.inUse hl]
  · have hkept := hf.kept hl.toZoneLayout (hc.marked m hm) (hS m hm hne)
    apply Linked.of_same
    rw [setInodeUnoccupied_getInode hl₁ hn₁ ((hf.inUse hl).mpr hm).1, hf.getInode hl hm.1]
    exact ⟨rfl, hkept.trans (setInodeUnoccupied_kept hl₁ hn₁ hkept.marks)⟩
  · rw [hmap.marked_iff, hf.marked_iff hl.map]

end GivenBack

namespace FileOps

open LiveBlocks

section Removing

variable {dev : Mount} {fs fs' : Fs} {bs j : ℕ} {disk disk' disk₈ : Mem} {parent n d k : Word}
  {name : CString} {S : Set Word} {c : BitVec 16}

/-- Inode `n` and the zones of `S` are not there any more, nor the entry in the parent directory,
which has `c` more links. -/
structure NodeRemoved (bs : ℕ) (disk : Mem) (parent n : Word) (S : Set Word) (c : BitVec 16)
    (disk' : Mem) : Prop where
  super : Minix3.getSuperblock disk' = Minix3.getSuperblock disk
  consistent : Consistent bs disk'
  inUse (m : Word) : InUse bs disk' m ↔ InUse bs disk m ∧ m ≠ n
  other (m : Word) : InUse bs disk m → m ≠ n → m ≠ parent → Linked bs disk disk' m 0
  rest : Minix3.getInode bs disk' parent = { Minix3.getInode bs disk parent with
    nlinks := (Minix3.getInode bs disk parent).nlinks + c }
  tree : treeZones bs disk' (Minix3.getInode bs disk' parent)
    = treeZones bs disk (Minix3.getInode bs disk parent)
  directory (d : Word) : Reachable bs disk d → d ≠ n →
    Directory bs disk' (Minix3.getInode bs disk' d)
  bound (d : Word) : Reachable bs disk d → d ≠ n → ∀ name k, BoundTo bs disk' d name k ↔
    BoundTo bs disk d name k ∧ k ≠ n
  marked (y : Word) : Marked bs disk' y ↔ Marked bs disk y ∧ y ∉ S

theorem Tree.reachable_remove (ht : Tree bs disk) (h1 : n ≠ 1)
    (hmode : ∀ m, InUse bs disk m → m ≠ n → isDirectory bs disk' m = isDirectory bs disk m)
    (hbound : ∀ d, Reachable bs disk d → d ≠ n → ∀ name k, BoundTo bs disk' d name k →
      BoundTo bs disk d name k ∧ k ≠ n) (hd : Reachable bs disk' d) :
    Reachable bs disk d ∧ d ≠ n := by
  apply reachable_within (R := fun d => Reachable bs disk d ∧ d ≠ n) ⟨.root, h1.symm⟩ _ hd
  rintro d name k ⟨hd, hdn⟩ hk hkdir
  obtain ⟨hold, hkn⟩ := hbound d hd hdn name k hk
  rw [hmode k (ht.entry d k name hd hold) hkn] at hkdir
  exact ⟨.step hd hold hkdir, hkn⟩

/-- An inode and the names for it are not there any more. -/
theorem Tree.remove (ht : Tree bs disk) (hc : Consistent bs disk') (h1 : n ≠ 1)
    (huse : ∀ m, InUse bs disk' m ↔ InUse bs disk m ∧ m ≠ n)
    (hmode : ∀ m, InUse bs disk m → m ≠ n → isDirectory bs disk' m = isDirectory bs disk m)
    (hdir : ∀ d, Reachable bs disk d → d ≠ n → Directory bs disk' (Minix3.getInode bs disk' d))
    (hbound : ∀ d, Reachable bs disk d → d ≠ n → ∀ name k, BoundTo bs disk' d name k →
      BoundTo bs disk d name k ∧ k ≠ n) : Tree bs disk' := by
  have hreach (d : Word) (hd : Reachable bs disk' d) : Reachable bs disk d ∧ d ≠ n :=
    ht.reachable_remove h1 hmode hbound hd
  refine ⟨hc, ⟨(huse 1).mpr ⟨ht.root.1, h1.symm⟩, ?_⟩, fun d hd => ?_, fun d k name hd hk => ?_⟩
  · exact (hmode 1 ht.root.1 h1.symm).trans ht.root.2
  · exact hdir d (hreach d hd).1 (hreach d hd).2
  · obtain ⟨hold, hkn⟩ := hbound d (hreach d hd).1 (hreach d hd).2 name k hk
    exact (huse k).mpr ⟨ht.entry d k name (hreach d hd).1 hold, hkn⟩

/-- Only `parent` has a name for `n`, and only one, apart from what is in `n` itself. -/
def OnlyName (bs : ℕ) (disk : Mem) (parent : Word) (name : CString) (n : Word) : Prop :=
  ∀ d, Reachable bs disk d → d ≠ n → ∀ other, BoundTo bs disk d other n →
    d = parent ∧ other = name

theorem entry_removed (ht : Tree bs disk) (hp : Reachable bs disk parent) (hne : parent ≠ n)
    (honly : OnlyName bs disk parent name n) (hg : GivenBack bs disk n S disk₈)
    (hj : j < entries (Minix3.getInode bs disk parent))
    (hjn : entryInode (fileMem bs disk (Minix3.getInode bs disk parent)) j = n)
    (hsole : ∀ i < entries (Minix3.getInode bs disk parent),
      entryInode (fileMem bs disk (Minix3.getInode bs disk parent)) i = n → i = j)
    (hc : EntryCleared bs disk₈ (Minix3.getInode bs disk parent) j disk') :
    NodeRemoved bs disk parent n S 0 disk' := by
  have hpuse := (ht.reachable hp).1
  have hdir := ht.directory parent hp
  have hlinked := hg.linked parent hpuse hne
  have hown (m : Word) (hm : InUse bs disk m) (hmn : m ≠ n) :
      Minix3.getInode bs disk₈ m = Minix3.getInode bs disk m := by
    have hinode := (hg.linked m hm hmn).inode
    rwa [add_zero] at hinode
  have hsame := hown parent hpuse hne
  have hl₈ := ht.layout.congr hg.super
  have hd₈ := hlinked.directory hl₈.toZoneLayout hdir
  have hentry (i : ℕ) (hi : i < entries (Minix3.getInode bs disk parent)) :
      entryInode (fileMem bs disk₈ (Minix3.getInode bs disk₈ parent)) i
        = entryInode (fileMem bs disk (Minix3.getInode bs disk parent)) i :=
    (hlinked.same_entry hdir.sound hi).inode
  have hbound (name : CString) (k : Word) : BoundTo bs disk₈ parent name k ↔
      BoundTo bs disk parent name k := hlinked.boundTo_iff hdir
  simp only [BoundTo, hsame] at hd₈ hentry hbound
  have hgetInode (m : Word) (hm : InUse bs disk m) (hmn : m ≠ n) :
      Minix3.getInode bs disk' m = Minix3.getInode bs disk₈ m :=
    hc.getInode hd₈ hl₈ ((hg.inUse m).mpr ⟨hm, hmn⟩).1
  have huse (m : Word) : InUse bs disk' m ↔ InUse bs disk m ∧ m ≠ n :=
    (hc.inUse hd₈ hl₈).trans (hg.inUse m)
  have hother (m : Word) (hm : InUse bs disk m) (hmn : m ≠ n) (hmp : m ≠ parent) :
      Linked bs disk disk' m 0 := by
    have hkept := (hg.linked m hm hmn).kept
    have hstep : Linked bs disk₈ disk' m 0 := by
      apply Linked.of_same
      rw [hgetInode m hm hmn, hown m hm hmn]
      exact ⟨rfl, hc.others _ hkept.marks
        (hkept.apart hlinked.kept (ht.apart m parent hm hpuse hmp))⟩
    have hboth := (hg.linked m hm hmn).trans hstep
    rwa [add_zero] at hboth
  have hpsame : Minix3.getInode bs disk' parent = Minix3.getInode bs disk parent :=
    (hgetInode parent hpuse hne).trans hsame
  have hmap := hc.map hd₈
  have hl' := hl₈.congr hmap.super
  have hd' := hc.directory hd₈ hl'.toZoneLayout hj
  have hnodes (p : Node) (hpin : p.In bs) :
      nodeZone bs disk' (Minix3.getInode bs disk parent) p
        = nodeZone bs disk (Minix3.getInode bs disk parent) p :=
    (hc.nodes p hpin).trans (hlinked.kept.nodes p hpin)
  refine ⟨hmap.super.trans hg.super, ht.of_nodes hl' (fun m hm => ((huse m).mp hm).1)
    (fun m hm p hpin => ?_) fun m hm => ?_, huse, hother, ?_, ?_, fun d hd hdn => ?_,
    fun d hd hdn name k => ?_, fun y => hmap.marked_iff.trans (hg.marked y)⟩
  · obtain ⟨hm, hmn⟩ := (huse m).mp hm
    by_cases hmp : m = parent
    · rw [hmp, hpsame]
      exact hnodes p hpin
    · exact (hother m hm hmn hmp).node hpin
  · obtain ⟨hm, hmn⟩ := (huse m).mp hm
    by_cases hmp : m = parent
    · rw [hmp, hpsame]
      exact hd'.sound.marked
    · have hlink := hother m hm hmn hmp
      exact (hlink.kept.of_zones hlink.zones).marks
  · rw [hpsame, add_zero]
  · rw [hpsame]
    ext y
    exact exists_congr fun p => and_congr_right fun hpin => by rw [hnodes p hpin]
  · by_cases hdp : d = parent
    · rw [hdp, hpsame]
      exact hd'
    · exact (hother d (ht.reachable hd).1 hdn hdp).directory hl'.toZoneLayout (ht.directory d hd)
  · by_cases hdp : d = parent
    · rw [hdp, BoundTo, hpsame, hc.binds_iff hd₈ ((hentry j hj).trans hjn) fun i hi hin =>
        hsole i hi ((hentry i hi).symm.trans hin)]
      exact and_congr_left' (hbound name k)
    · rw [(hother d (ht.reachable hd).1 hdn hdp).boundTo_iff (ht.directory d hd)]
      refine (and_iff_left_of_imp fun hk hkn => ?_).symm
      subst hkn
      exact hdp (honly d hd hdn name hk).1

/-- The link count of the parent directory is written last. -/
theorem NodeRemoved.relink (h : NodeRemoved bs disk parent n S 0 disk₈) (ht : Tree bs disk)
    (hp : Reachable bs disk parent) (hne : parent ≠ n)
    (hr : Relinked bs disk₈ (fun m => if m = parent then c else 0) disk') :
    NodeRemoved bs disk parent n S c disk' := by
  have hpuse := (ht.reachable hp).1
  have hparent := hr.linked parent ((h.inUse parent).mpr ⟨hpuse, hne⟩)
  rw [if_pos rfl] at hparent
  have hl' := hr.consistent.layout.toZoneLayout
  have hstep (m : Word) (hm : InUse bs disk m) (hmn : m ≠ n) :=
    hr.linked m ((h.inUse m).mpr ⟨hm, hmn⟩)
  refine ⟨hr.map.super.trans h.super, hr.consistent, fun m => (hr.inUse m).trans (h.inUse m),
    fun m hm hmn hmp => ?_, ?_, hparent.tree.trans h.tree, fun d hd hdn => ?_,
    fun d hd hdn name k => ?_, fun y => hr.map.marked_iff.trans (h.marked y)⟩
  · have hlast := hstep m hm hmn
    rw [if_neg hmp] at hlast
    have hboth := (h.other m hm hmn hmp).trans hlast
    rwa [add_zero] at hboth
  · rw [hparent.inode, h.rest, add_zero]
  · exact (hstep d (ht.reachable hd).1 hdn).directory hl' (h.directory d hd hdn)
  · rw [(hstep d (ht.reachable hd).1 hdn).boundTo_iff (h.directory d hd hdn)]
    exact h.bound d hd hdn name k

theorem NodeRemoved.isDirectory (h : NodeRemoved bs disk parent n S c disk') {m : Word}
    (hm : InUse bs disk m) (hmn : m ≠ n) : isDirectory bs disk' m = isDirectory bs disk m := by
  by_cases hmp : m = parent
  · rw [hmp, FileOps.isDirectory, h.rest]
    rfl
  · exact (h.other m hm hmn hmp).isDirectory

theorem NodeRemoved.reachable_old (h : NodeRemoved bs disk parent n S c disk') (ht : Tree bs disk)
    (h1 : n ≠ 1) (hd : Reachable bs disk' d) : Reachable bs disk d ∧ d ≠ n :=
  ht.reachable_remove h1 (fun _ hm hmn => h.isDirectory hm hmn)
    (fun d hd hdn name k => (h.bound d hd hdn name k).mp) hd

theorem NodeRemoved.toTree (h : NodeRemoved bs disk parent n S c disk') (ht : Tree bs disk)
    (h1 : n ≠ 1) : Tree bs disk' :=
  ht.remove h.consistent h1 h.inUse (fun _ hm hmn => h.isDirectory hm hmn) h.directory
    fun d hd hdn name k => (h.bound d hd hdn name k).mp

/-- The entry of the directory that has the name. -/
theorem only_entry (ht : Tree bs disk) (hp : Reachable bs disk parent)
    (hb : BoundTo bs disk parent name n) (hne : parent ≠ n) (hn : n ≠ 0)
    (honly : OnlyName bs disk parent name n) :
    ∃ j < entries (Minix3.getInode bs disk parent),
      entryInode (fileMem bs disk (Minix3.getInode bs disk parent)) j = n ∧
      ∀ i < entries (Minix3.getInode bs disk parent),
        entryInode (fileMem bs disk (Minix3.getInode bs disk parent)) i = n → i = j := by
  have hparent := ht.directory parent hp
  obtain ⟨j, hj, hname, hjn⟩ := hb
  refine ⟨j, hj, hjn, fun i hi hin => ?_⟩
  obtain ⟨other, hother, hbinds⟩ := hparent.bound hi (hin ▸ hn)
  rw [hin] at hbinds
  obtain rfl := (honly parent hp hne other hbinds).2
  exact hparent.names i j other hi hj hother hname

/-- The loop over the parent directory, behind the inode. -/
theorem removeEntries_sound {fs₈ : Fs} (ht : Tree dev.bs fs.disk)
    (hp : Reachable dev.bs fs.disk parent) (hne : parent ≠ n)
    (hb : BoundTo dev.bs fs.disk parent name n) (hn : n ≠ 0)
    (honly : OnlyName dev.bs fs.disk parent name n)
    (hg : GivenBack dev.bs fs.disk n S fs₈.disk) :
    ∃ disk', NodeRemoved dev.bs fs.disk parent n S 0 disk' ∧
      Ensures ∅ (At fs₈) (removeEntries dev (Minix3.getInode dev.bs fs.disk parent) n
        (getFileMaxZones dev.bs) 0) fun _ => At (fs₈.withDisk disk') := by
  have hlinked := hg.linked parent (ht.reachable hp).1 hne
  have hsame : Minix3.getInode dev.bs fs₈.disk parent = Minix3.getInode dev.bs fs.disk parent := by
    have hinode := hlinked.inode
    rwa [add_zero] at hinode
  have hdir := ht.directory parent hp
  have hd₈ := hlinked.directory (ht.layout.toZoneLayout.congr hg.super) hdir
  obtain ⟨j, hj, hjn, hsole⟩ := only_entry ht hp hb hne hn honly
  have hentry (i : ℕ) (hi : i < entries (Minix3.getInode dev.bs fs.disk parent)) :
      entryInode (fileMem dev.bs fs₈.disk (Minix3.getInode dev.bs fs₈.disk parent)) i
        = entryInode (fileMem dev.bs fs.disk (Minix3.getInode dev.bs fs.disk parent)) i :=
    (hlinked.same_entry hdir.sound hi).inode
  rw [hsame] at hd₈ hentry
  refine ⟨_, entry_removed ht hp hne honly hg hj hjn hsole (hd₈.clear hj), ?_⟩
  apply removeEntries_one hd₈ hn hj ((hentry j hj).trans hjn)
  · exact fun i hi hin => hsole i hi ((hentry i hi).symm.trans hin)
  · omega
  · rw [Nat.zero_add]
    exact hd₈.zones

end Removing

end FileOps

end Minix3
