import DucreuOS.DirectoryEntries
import DucreuOS.TakenZones

/-! # An entry for a new inode

`minix3_touch_common` in a tree of directories: one more name in the parent directory, and the tree
stays one. -/
namespace Minix3

open ByteMemory

/-! ## Files that are left alone -/

section Linked

variable {bs k : ℕ} {disk disk' disk'' : Mem} {inode inode' : Inode} {m : Word} {c d : BitVec 16}

theorem Kept.of_zones (h : Kept bs disk disk' inode) (hz : inode'.zones = inode.zones) :
    Kept bs disk disk' inode' where
  nodes n hn := by
    rw [nodeZone_inode hz, nodeZone_inode hz]
    exact h.nodes n hn
  bytes n hn := by
    rw [nodeZone_inode hz]
    exact h.bytes n hn
  marks n hn := by
    rw [nodeZone_inode hz]
    exact h.marks n hn

theorem byteAddr_inode (hz : inode'.zones = inode.zones) :
    byteAddr bs disk inode' k = byteAddr bs disk inode k := by
  have hzone : fileZone bs disk inode' (k / bs) = fileZone bs disk inode (k / bs) :=
    nodeZone_inode hz (.data (k / bs))
  rw [byteAddr, byteAddr, hzone]

/-- The file of inode `m` is what it was, but for `d` more links. -/
structure Linked (bs : ℕ) (disk disk' : Mem) (m : Word) (d : BitVec 16) : Prop where
  inode : getInode bs disk' m =
    { getInode bs disk m with nlinks := (getInode bs disk m).nlinks + d }
  kept : Kept bs disk disk' (getInode bs disk m)

namespace Linked

theorem of_same (h : getInode bs disk' m = getInode bs disk m ∧
    Kept bs disk disk' (getInode bs disk m)) : Linked bs disk disk' m 0 where
  inode := by rw [h.1, add_zero]
  kept := h.2

variable (h : Linked bs disk disk' m d)

include h

theorem zones : (getInode bs disk' m).zones = (getInode bs disk m).zones := by rw [h.inode]

theorem size : (getInode bs disk' m).size = (getInode bs disk m).size := by rw [h.inode]

theorem nlinks : (getInode bs disk' m).nlinks = (getInode bs disk m).nlinks + d := by rw [h.inode]

theorem isDirectory : (getInode bs disk' m).isDirectory = (getInode bs disk m).isDirectory := by
  rw [h.inode]
  rfl

theorem trans {e : BitVec 16} (h' : Linked bs disk' disk'' m e) :
    Linked bs disk disk'' m (d + e) where
  inode := by rw [h'.inode, h.inode, add_assoc]
  kept := h.kept.trans (h'.kept.of_zones h.zones.symm)

theorem node {n : Node} (hn : n.In bs) :
    nodeZone bs disk' (getInode bs disk' m) n = nodeZone bs disk (getInode bs disk m) n := by
  rw [nodeZone_inode h.zones]
  exact h.kept.nodes n hn

theorem tree : treeZones bs disk' (getInode bs disk' m) = treeZones bs disk (getInode bs disk m) := by
  ext z
  exact exists_congr fun n => and_congr_right fun hn => by rw [h.node hn]

variable (hs : Sound bs disk (getInode bs disk m))

include hs

theorem sound (hl : ZoneLayout bs disk') : Sound bs disk' (getInode bs disk' m) where
  layout := hl
  distinct a b ha hb := by
    rw [h.node ha, h.node hb]
    exact hs.distinct a b ha hb
  marked := (h.kept.of_zones h.zones).marks
  whole := hs.whole.congr h.size fun _ hj => h.node hj

theorem byte (hk : k / bs * bs < (getInode bs disk m).size.toNat) :
    disk' (byteAddr bs disk' (getInode bs disk' m) k)
      = disk (byteAddr bs disk (getInode bs disk m) k) := by
  rw [byteAddr_inode h.zones]
  exact h.kept.byte hs.layout.pos hs.whole hk

theorem blank (hb : BlankTail bs disk (getInode bs disk m)) :
    BlankTail bs disk' (getInode bs disk' m) := by
  intro k hk hk'
  rw [h.size] at hk hk'
  rw [h.byte hs hk']
  exact hb k hk hk'

end Linked

end Linked

/-! ## Directories that are left alone or have grown -/

section Directories

open FileOps

variable {bs j : ℕ} {disk disk' : Mem} {fs fs' : Fs} {m n k : Word} {d : BitVec 16}
  {name fname : CString}

theorem Linked.same_entry (h : Linked bs disk disk' m d)
    (hs : Sound bs disk (getInode bs disk m)) (hj : j < entries (getInode bs disk m)) :
    SameEntry (fileMem bs disk (getInode bs disk m))
      (fileMem bs disk' (getInode bs disk' m)) j :=
  FileOps.same_entry (fun k hk => h.byte hs ((Nat.div_mul_le_self k bs).trans_lt hk)) hj

theorem Linked.directory (h : Linked bs disk disk' m d) (hl : ZoneLayout bs disk')
    (hd : Directory bs disk (getInode bs disk m)) :
    Directory bs disk' (getInode bs disk' m) :=
  hd.thinned (h.sound hd.sound hl) h.size (h.blank hd.sound hd.blank) fun _ hj _ =>
    h.same_entry hd.sound hj

theorem Linked.boundTo_iff (h : Linked bs disk disk' m d)
    (hd : Directory bs disk (getInode bs disk m)) :
    BoundTo bs disk' m name k ↔ BoundTo bs disk m name k :=
  binds_same h.size fun _ hj => h.same_entry hd.sound hj

/-- The bytes of an entry behind those of a directory. -/
theorem AppendedTo.extended (ha : AppendedTo bs fs m (listed (dirEntry n fname) dirEntrySize) fs')
    (hm : InUse bs fs.disk m) (hd : Directory bs fs.disk (getInode bs fs.disk m)) :
    Extended bs fs.disk (getInode bs fs.disk m) n fname fs'.disk
      (getInode bs fs'.disk m) := by
  have hsize : (getInode bs fs'.disk m).size.toNat
      = (getInode bs fs.disk m).size.toNat + dirEntrySize := by
    have hlen := congrArg List.length ha.contents
    rwa [List.length_append, length_contents, length_contents, length_listed] at hlen
  have hbyte {k : ℕ} (hk : k < (getInode bs fs'.disk m).size.toNat) :
      fileMem bs fs'.disk (getInode bs fs'.disk m) k
        = (Minix3.contents bs fs.disk (getInode bs fs.disk m) ++
            listed (dirEntry n fname) dirEntrySize).getD k 0 := by
    rw [← ha.contents]
    exact (getD_listed _ hk).symm
  refine ⟨ha.grew.consistent.sound ((ha.grew.inUse m).mpr hm) ha.whole, hsize,
    ha.blank hd.blank, fun k hk => ?_, fun x hx => ?_⟩
  · rw [hbyte (by omega), List.getD_append _ _ _ _ (by rwa [length_contents])]
    exact getD_listed _ hk
  · rw [hbyte (by omega), List.getD_append_right _ _ _ _ (by rw [length_contents]; omega),
      length_contents, Nat.add_sub_cancel_left]
    exact getD_listed _ hx

/-- What came before the append has left the directory alone. -/
theorem Linked.extended {disk₁ : Mem} {dir : Inode} (h : Linked bs disk disk₁ m d)
    (hs : Sound bs disk (getInode bs disk m))
    (he : Extended bs disk₁ (getInode bs disk₁ m) n fname disk' dir) :
    Extended bs disk (getInode bs disk m) n fname disk' dir where
  sound := he.sound
  size := by rw [he.size, h.size]
  blank := he.blank
  old k hk := by
    rw [he.old k (by rwa [h.size])]
    exact h.byte hs ((Nat.div_mul_le_self k bs).trans_lt hk)
  entry := by
    rw [← h.size]
    exact he.entry

/-- A directory without entries. -/
theorem empty_directory {dir : Inode} (hs : Sound bs disk dir) (hblock : ∃ k, bs = 2 ^ k * dirEntrySize)
    (hsize : dir.size = 0) : Directory bs disk dir ∧ ∀ name k, ¬ Binds bs disk dir name k := by
  have hnone (j : ℕ) : ¬ j < entries dir := by
    rw [entries, hsize]
    exact Nat.not_lt_zero j
  refine ⟨⟨hs, hblock, ?_, fun k _ hk => ?_, fun j hj => absurd hj (hnone j),
    fun i _ _ hi => absurd hi (hnone i)⟩, ?_⟩
  · rw [hsize]
    exact dvd_zero _
  · rw [hsize] at hk
    exact absurd hk (Nat.not_lt_zero _)
  · rintro name k ⟨j, hj, -⟩
    exact hnone j hj

end Directories

namespace FileOps

open LiveBlocks

/-! ## Trees that grow -/

section Trees

variable {bs : ℕ} {disk disk' : Mem} {parent n d : Word}

theorem reachable_within {R : Word → Prop} (hroot : R 1)
    (hstep : ∀ d name k, R d → BoundTo bs disk d name k → isDirectory bs disk k = true → R k)
    (h : Reachable bs disk d) : R d := by
  induction h with
  | root => exact hroot
  | step _ hbinds hdir ih => exact hstep _ _ _ ih hbinds hdir

/-- Names have been added, and no mode has changed. -/
theorem Tree.reachable_mono (ht : Tree bs disk)
    (hmode : ∀ m, InUse bs disk m → isDirectory bs disk' m = isDirectory bs disk m)
    (hbound : ∀ d, Reachable bs disk d → ∀ name k, BoundTo bs disk d name k →
      BoundTo bs disk' d name k) (h : Reachable bs disk d) : Reachable bs disk' d := by
  induction h with
  | root => exact .root
  | @step d k name hd hbinds hdir ih =>
    exact .step ih (hbound d hd name k hbinds) ((hmode k (ht.entry d k name hd hbinds)).trans hdir)

/-- The new names are for a new inode; a new directory leads only to itself and to `parent`. -/
theorem Tree.reachable_add (ht : Tree bs disk) (hp : Reachable bs disk parent)
    (hmode : ∀ m, InUse bs disk m → isDirectory bs disk' m = isDirectory bs disk m)
    (hbound : ∀ d, Reachable bs disk d → ∀ name k, BoundTo bs disk' d name k →
      BoundTo bs disk d name k ∨ k = n)
    (hown : isDirectory bs disk' n = true → ∀ name k, BoundTo bs disk' n name k →
      k = n ∨ k = parent)
    (hd : Reachable bs disk' d) :
    Reachable bs disk d ∨ (d = n ∧ isDirectory bs disk' n = true) := by
  apply reachable_within (Or.inl .root) _ hd
  rintro d name k (hd | ⟨rfl, hnew⟩) hk hkdir
  · rcases hbound d hd name k hk with hold | rfl
    · exact Or.inl (.step hd hold ((hmode k (ht.entry d k name hd hold)).symm.trans hkdir))
    · exact Or.inr ⟨rfl, hkdir⟩
  · rcases hown hnew name k hk with rfl | rfl
    · exact Or.inr ⟨rfl, hnew⟩
    · exact Or.inl hp

theorem Tree.add (ht : Tree bs disk) (hp : Reachable bs disk parent) (hc : Consistent bs disk')
    (huse : ∀ m, InUse bs disk' m ↔ m = n ∨ InUse bs disk m)
    (hmode : ∀ m, InUse bs disk m → isDirectory bs disk' m = isDirectory bs disk m)
    (hdir : ∀ d, Reachable bs disk d → Directory bs disk' (Minix3.getInode bs disk' d))
    (hbound : ∀ d, Reachable bs disk d → ∀ name k, BoundTo bs disk' d name k →
      BoundTo bs disk d name k ∨ k = n)
    (hown : isDirectory bs disk' n = true → Directory bs disk' (Minix3.getInode bs disk' n) ∧
      ∀ name k, BoundTo bs disk' n name k → k = n ∨ k = parent) : Tree bs disk' := by
  have hreach (d : Word) (hd : Reachable bs disk' d) :
      Reachable bs disk d ∨ (d = n ∧ isDirectory bs disk' n = true) :=
    ht.reachable_add hp hmode hbound (fun hnew => (hown hnew).2) hd
  refine ⟨hc, ⟨(huse 1).mpr (Or.inr ht.root.1), (hmode 1 ht.root.1).trans ht.root.2⟩,
    fun d hd => ?_, fun d k name hd hk => (huse k).mpr ?_⟩
  · rcases hreach d hd with hold | ⟨rfl, hnew⟩
    · exact hdir d hold
    · exact (hown hnew).1
  · rcases hreach d hd with hold | ⟨rfl, hnew⟩
    · exact (hbound d hold name k hk).symm.imp id fun hold' => ht.entry d k name hold hold'
    · rcases (hown hnew).2 name k hk with rfl | rfl
      · exact Or.inl rfl
      · exact Or.inr (ht.reachable hp).1

end Trees

/-! ## The new entry -/

section Entering

variable {dev : Mount} {fs fs' : Fs} {bs l : ℕ} {parent n d k : Word} {fname name : CString}
  {inode : Inode}

/-- Inode `n` has been taken for `inode`, and the parent directory has an entry for it: no other
file has changed, and the zones that are taken are in the tree of the parent directory. -/
structure Entered (bs : ℕ) (fs : Fs) (parent n : Word) (fname : CString) (inode : Inode)
    (fs' : Fs) : Prop where
  fresh : FreeInode bs fs.disk n
  super : Minix3.getSuperblock fs'.disk = Minix3.getSuperblock fs.disk
  consistent : Consistent bs fs'.disk
  inUse : ∀ m, InUse bs fs'.disk m ↔ m = n ∨ InUse bs fs.disk m
  own : Minix3.getInode bs fs'.disk n = inode
  other : ∀ m, InUse bs fs.disk m → m ≠ parent → Linked bs fs.disk fs'.disk m 0
  rest : Minix3.getInode bs fs'.disk parent = { Minix3.getInode bs fs.disk parent with
    size := (Minix3.getInode bs fs'.disk parent).size
    zones := (Minix3.getInode bs fs'.disk parent).zones }
  extended : Extended bs fs.disk (Minix3.getInode bs fs.disk parent) n fname fs'.disk
    (Minix3.getInode bs fs'.disk parent)
  marks : ∀ z, Marked bs fs.disk z → Marked bs fs'.disk z
  takes : ∀ z, Marked bs fs'.disk z → Marked bs fs.disk z ∨
    z ∈ treeZones bs fs'.disk (Minix3.getInode bs fs'.disk parent)

theorem entered {fs₁ : Fs} (ht : Tree bs fs.disk) (hp : Reachable bs fs.disk parent)
    (hn : FreeInode bs fs.disk n) (hcreated : Created bs fs.disk fs₁.disk n inode)
    (ha : AppendedTo bs fs₁ parent (listed (dirEntry n fname) dirEntrySize) fs')
    (htakes : Takes bs fs₁.disk (Minix3.getInode bs fs₁.disk parent) fs'.disk
      (Minix3.getInode bs fs'.disk parent)) :
    Entered bs fs parent n fname inode fs' := by
  have hpuse := (ht.reachable hp).1
  have hne : n ≠ parent := fun heq => hn.not_inUse (heq ▸ hpuse)
  have hold (m : Word) (hm : InUse bs fs.disk m) : Linked bs fs.disk fs₁.disk m 0 :=
    .of_same (hcreated.other m hm)
  have hparent := hold parent hpuse
  have hpuse₁ := (hcreated.inUse parent).mpr (Or.inr hpuse)
  have hdir := ht.directory parent hp
  have hl₁ := hcreated.consistent.layout.toZoneLayout
  refine ⟨hn, ha.grew.super.trans hcreated.map.super, ha.grew.consistent,
    fun m => (ha.grew.inUse m).trans (hcreated.inUse m), ?_, fun m hm hmp => ?_, ?_, ?_,
    fun z hz => ?_, fun z hz => ?_⟩
  · exact (ha.grew.other n ((hcreated.inUse n).mpr (Or.inl rfl)) hne).1.trans hcreated.own
  · have hboth := (hold m hm).trans
      (.of_same (ha.grew.other m ((hcreated.inUse m).mpr (Or.inr hm)) hmp))
    rwa [add_zero] at hboth
  · rw [← (hcreated.other parent hpuse).1]
    exact ha.rest
  · exact hparent.extended hdir.sound (ha.extended hpuse₁ (hparent.directory hl₁ hdir))
  · exact htakes.marks z (hcreated.map.marked_iff.mpr hz)
  · rcases htakes.uses z hz with hmarked | hnone | htree
    · exact Or.inl (hcreated.map.marked_iff.mp hmarked)
    · exact absurd hnone (Set.notMem_empty z)
    · exact Or.inr htree

namespace Entered

variable (he : Entered bs fs parent n fname inode fs') (ht : Tree bs fs.disk)
  (hp : Reachable bs fs.disk parent)

include he

theorem isDirectory {m : Word} (hm : InUse bs fs.disk m) :
    FileOps.isDirectory bs fs'.disk m = FileOps.isDirectory bs fs.disk m := by
  by_cases hmp : m = parent
  · subst hmp
    rw [FileOps.isDirectory, he.rest]
    rfl
  · exact (he.other m hm hmp).isDirectory

include ht

theorem not_parent (hp : Reachable bs fs.disk parent) : n ≠ parent := fun heq =>
  he.fresh.not_inUse (heq ▸ (ht.reachable hp).1)

variable (hfits : fname.chars.length < MX3_NAME_LEN)

include hfits

theorem boundTo_iff (hd : Reachable bs fs.disk d) : BoundTo bs fs'.disk d name k ↔
    BoundTo bs fs.disk d name k ∨ (d = parent ∧ name = fname ∧ k = n) := by
  by_cases hdp : d = parent
  · subst hdp
    rw [BoundTo, he.extended.binds_iff (ht.directory d hd) he.fresh.1.1 hfits]
    simp only [true_and]
    rfl
  · rw [(he.other d (ht.reachable hd).1 hdp).boundTo_iff (ht.directory d hd)]
    simp only [hdp, false_and, or_false]

theorem reachable (hd : Reachable bs fs.disk d) : Reachable bs fs'.disk d :=
  ht.reachable_mono (fun _ hm => he.isDirectory hm)
    (fun _ hd _ _ hk => (he.boundTo_iff ht hfits hd).mpr (Or.inl hk)) hd

variable (hno : ¬ Bound bs fs.disk parent fname)

include hno

theorem directory (hd : Reachable bs fs.disk d) :
    Directory bs fs'.disk (Minix3.getInode bs fs'.disk d) := by
  by_cases hdp : d = parent
  · subst hdp
    exact he.extended.directory (ht.directory d hd) he.fresh.1.1 hfits fun k hk => hno ⟨k, hk⟩
  · exact (he.other d (ht.reachable hd).1 hdp).directory
      he.consistent.layout.toZoneLayout (ht.directory d hd)

/-- The new file is empty. -/
theorem tree (hp : Reachable bs fs.disk parent) (hempty : ∀ i, inode.zones i = 0)
    (hsize : inode.size = 0) : Tree bs fs'.disk := by
  refine ht.add hp he.consistent he.inUse (fun _ hm => he.isDirectory hm)
    (fun d hd => he.directory ht hfits hno hd) (fun d hd name k hk => ?_) fun _ => ?_
  · exact ((he.boundTo_iff ht hfits hd).mp hk).imp id fun h => h.2.2
  · have hsound : Sound bs fs'.disk (Minix3.getInode bs fs'.disk n) := by
      apply he.consistent.sound ((he.inUse n).mpr (Or.inl rfl))
      rw [he.own]
      exact empty_whole hempty hsize
    obtain ⟨hdir, hnone⟩ := empty_directory hsound (ht.directory parent hp).block
      (by rw [he.own]; exact hsize)
    exact ⟨hdir, fun name k hk => absurd hk (hnone name k)⟩

end Entered

theorem Classified.notFound_iff {disk : Mem} {lookup : Lookup}
    (h : Classified bs disk parent fname lookup) :
    lookup.retval = MX3_RETURN_CODE_NOT_FOUND ↔ ¬ Bound bs disk parent fname := by
  cases h with
  | notFound hno => exact iff_of_true rfl hno
  | @file n hn _ =>
    refine iff_of_false (fun hcode => ?_) (not_not_intro ⟨n, hn⟩)
    exact absurd hcode (by decide : MX3_RETURN_CODE_NOT_DIRECTORY ≠ MX3_RETURN_CODE_NOT_FOUND)
  | @directory n hn _ =>
    refine iff_of_false (fun hcode => ?_) (not_not_intro ⟨n, hn⟩)
    exact absurd hcode (by decide : 0 ≠ MX3_RETURN_CODE_NOT_FOUND)

/-- An entry fits in what is left of a zone. -/
theorem Directory.entry_fits {disk : Mem} {dir : Inode} (h : Directory bs disk dir) :
    dirEntrySize + dir.size.toNat % bs ≤ bs := by
  obtain ⟨a, ha⟩ := h.aligned
  obtain ⟨b, hb⟩ := h.size
  have hpos : 0 < a := by
    apply Nat.pos_of_ne_zero
    rintro rfl
    exact h.sound.layout.pos.ne' ha
  have hle := Nat.mul_le_mul_left dirEntrySize (Nat.succ_le_of_lt (Nat.mod_lt b hpos))
  rw [Nat.mul_succ] at hle
  rw [hb, ha, Nat.mul_mod_mul_left, Nat.add_comm]
  exact hle

/-- What `minix3_append_to_file` does to a directory. -/
structure EntryAppended (bs : ℕ) (fs : Fs) (m n : Word) (fname : CString) (fs' : Fs) : Prop where
  appended : AppendedTo bs fs m (listed (dirEntry n fname) dirEntrySize) fs'
  takes : Takes bs fs.disk (Minix3.getInode bs fs.disk m) fs'.disk (Minix3.getInode bs fs'.disk m)

theorem append_entry {m : Word} (fname : CString) (hc : Consistent dev.bs fs.disk)
    (hm : InUse dev.bs fs.disk m)
    (hd : Directory dev.bs fs.disk (Minix3.getInode dev.bs fs.disk m))
    (hroom : fileSize dev.bs fs.disk m + dirEntrySize ≤
      blockStart dev.bs (1 + ppz dev.bs) * dev.bs)
    (hfree : FreeAhead dev.bs fs (l + growCost dev.bs (fileSize dev.bs fs.disk m) dirEntrySize)) :
    Ensures ∅ (At fs) (appendToFile dev m (dirEntry n fname) (BitVec.ofNat 32 dirEntrySize))
      fun _ s => EntryAppended dev.bs fs m n fname s.fs ∧ FreeAhead dev.bs s.fs l := by
  have happend : Ensures ∅ (At fs) (appendToFile dev m (dirEntry n fname)
      (BitVec.ofNat 32 dirEntrySize)) fun r s => r = 0 ∧
        AppendedTo dev.bs fs m (listed (dirEntry n fname) dirEntrySize) s.fs ∧
          FreeAhead dev.bs s.fs l := appendToFile_sound hc hm hd.sound.whole hroom hfree
  have htakes : Ensures ∅ (At fs) (appendToFile dev m (dirEntry n fname)
      (BitVec.ofNat 32 dirEntrySize)) fun _ s => Takes dev.bs fs.disk
        (Minix3.getInode dev.bs fs.disk m) s.fs.disk (Minix3.getInode dev.bs s.fs.disk m) :=
    appendToFile_takes hc hm hd.sound.whole hroom (hfree.mono (Nat.le_add_left _ _)) hd.entry_fits
  apply (happend.and htakes).weaken
  exact fun _ _ h => ⟨⟨h.1.2.1, h.2⟩, h.1.2.2⟩

/-- A name that is bound is refused; otherwise the call returns 0. -/
theorem touchCommon_sound {f_mode f_uid f_gid : BitVec 16} (ht : Tree dev.bs fs.disk)
    (hp : Reachable dev.bs fs.disk parent) (hcan : CanTouch dev.bs fs parent l) :
    Ensures ∅ (At fs) (touchCommon dev parent fname f_mode f_uid f_gid) fun r m =>
      (r = 4 ∧ Bound dev.bs fs.disk parent fname ∧ At fs m) ∨
      (r = 0 ∧ ¬ Bound dev.bs fs.disk parent fname ∧
        ∃ n, Entered dev.bs fs parent n fname (newInode f_mode f_uid f_gid) m.fs ∧
          FreeAhead dev.bs m.fs l) := by
  apply (touchCommon_enters (L := Classified dev.bs fs.disk parent fname) (Q := fun n fs₁ fs' =>
    EntryAppended dev.bs fs₁ parent n fname fs' ∧ FreeAhead dev.bs fs' l) fname ht.toConsistent hcan
    (lookup_classified ht hp fname) fun n fs₁ hn hcreated _ hfree => ?_).weaken
  · rintro r m (⟨-, hm, hcode⟩ | ⟨hr, ⟨lookup, hlookup, hno⟩, n, fs₁, hn, hcreated, -, ha, hfree⟩)
    · obtain ⟨hr, lookup, hlookup, hfound⟩ := hcode (ht.reachable hp).2
      exact Or.inl ⟨hr, not_not.mp fun hno => hfound (hlookup.notFound_iff.mpr hno), hm⟩
    · exact Or.inr ⟨hr, hlookup.notFound_iff.mp hno, n,
        entered ht hp hn hcreated ha.appended ha.takes, hfree⟩
  · have hparent : Linked dev.bs fs.disk fs₁.disk parent 0 :=
      .of_same (hcreated.other parent hcan.inUse)
    have hsize : fileSize dev.bs fs₁.disk parent = fileSize dev.bs fs.disk parent := by
      rw [fileSize, hparent.size, fileSize]
    apply append_entry fname hcreated.consistent ((hcreated.inUse parent).mpr (Or.inr hcan.inUse))
      (hparent.directory hcreated.consistent.layout.toZoneLayout (ht.directory parent hp))
    · rw [hsize]
      exact hcan.room
    · rw [hsize]
      exact hfree

end Entering

end FileOps

end Minix3
