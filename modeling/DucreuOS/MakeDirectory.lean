import DucreuOS.EntryCreation

/-! # A new directory

`minix3_mkdir` in a tree of directories: an entry for the new inode, one more link for it and for
the parent directory, and the entries `.` and `..`. -/
namespace Minix3

open ByteMemory

/-! ## Link counts -/

section Relinked

variable {bs : ℕ} {disk disk' disk'' : Mem} {inode inode' : Inode} {W : Set Word} {n : Word}
  {c d : Word → BitVec 16}

theorem Grown.of_zones (hd : DistinctZones bs disk inode) (hm : MarkedZones bs disk inode)
    (hz : inode'.zones = inode.zones) : Grown bs W disk inode disk inode' where
  writes := (Extends.refl bs disk).mono (Set.empty_subset W)
  distinct a b ha hb := by
    rw [nodeZone_inode hz, nodeZone_inode hz]
    exact hd a b ha hb
  marked p hp := by
    rw [nodeZone_inode hz]
    exact hm p hp
  origin p _ _ := Or.inl (nodeZone_inode hz p)

/-- Every file is what it was, but for `d m` more links of file `m`. -/
structure Relinked (bs : ℕ) (disk : Mem) (d : Word → BitVec 16) (disk' : Mem) : Prop where
  consistent : Consistent bs disk'
  map : SameMap bs disk disk'
  inUse (m : Word) : InUse bs disk' m ↔ InUse bs disk m
  linked (m : Word) : InUse bs disk m → Linked bs disk disk' m (d m)

theorem Relinked.trans (h : Relinked bs disk c disk') (h' : Relinked bs disk' d disk'') :
    Relinked bs disk (fun m => c m + d m) disk'' where
  consistent := h'.consistent
  map := h.map.trans h'.map
  inUse m := (h'.inUse m).trans (h.inUse m)
  linked m hm := (h.linked m hm).trans (h'.linked m ((h.inUse m).mpr hm))

theorem Consistent.relink (hc : Consistent bs disk) (hn : InUse bs disk n) (e : BitVec 16) :
    Relinked bs disk (fun m => if m = n then e else 0) (putInode bs disk n
      { getInode bs disk n with nlinks := (getInode bs disk n).nlinks + e }) := by
  have hgrown : Grown bs (treeZones bs disk (getInode bs disk n)) disk (getInode bs disk n) disk
      { getInode bs disk n with nlinks := (getInode bs disk n).nlinks + e } :=
    .of_zones (hc.distinct n hn) (hc.marked n hn) rfl
  obtain ⟨hgrew, hkept⟩ := hc.grow hn hgrown
  refine ⟨hgrew.consistent, putInode_map _ hc.layout hn.1, hgrew.inUse, fun m hm => ?_⟩
  by_cases hmn : m = n
  · subst hmn
    rw [if_pos rfl]
    exact ⟨hgrew.own, hkept.of_zones rfl⟩
  · rw [if_neg hmn]
    exact .of_same (hgrew.other m hm hmn)

end Relinked

namespace FileOps

open LiveBlocks

section Making

variable {dev : Mount} {fs fs₂ fs₄ fs₅ fs' : Fs} {bs l : ℕ} {parent n d k : Word}
  {fname name : CString} {inode : Inode}

/-- The directory `fname` has been made in the parent directory, as inode `n`; the zones that are
taken are in the trees of the two. -/
structure Made (bs : ℕ) (fs : Fs) (parent n : Word) (fname : CString) (fs' : Fs) : Prop where
  fresh : FreeInode bs fs.disk n
  super : Minix3.getSuperblock fs'.disk = Minix3.getSuperblock fs.disk
  consistent : Consistent bs fs'.disk
  inUse (m : Word) : InUse bs fs'.disk m ↔ m = n ∨ InUse bs fs.disk m
  other (m : Word) : InUse bs fs.disk m → m ≠ parent → Linked bs fs.disk fs'.disk m 0
  mode (m : Word) : InUse bs fs.disk m →
    isDirectory bs fs'.disk m = isDirectory bs fs.disk m
  nlinks : (Minix3.getInode bs fs'.disk parent).nlinks =
    (Minix3.getInode bs fs.disk parent).nlinks + 1
  directory (d : Word) : Reachable bs fs.disk d →
    Directory bs fs'.disk (Minix3.getInode bs fs'.disk d)
  bound (d : Word) : Reachable bs fs.disk d → ∀ name k, BoundTo bs fs'.disk d name k ↔
    BoundTo bs fs.disk d name k ∨ (d = parent ∧ name = fname ∧ k = n)
  child : isDirectory bs fs'.disk n = true
  childDirectory : Directory bs fs'.disk (Minix3.getInode bs fs'.disk n)
  childSize : (Minix3.getInode bs fs'.disk n).size.toNat = 2 * dirEntrySize
  childBound (name : CString) (k : Word) : BoundTo bs fs'.disk n name k ↔
    (name = dot ∧ k = n) ∨ (name = dotDot ∧ k = parent)
  childTree (p : Node) : p.In bs →
    nodeZone bs fs'.disk (Minix3.getInode bs fs'.disk n) p ≠ 0 → p = .data 0
  childZone : ¬ Marked bs fs.disk (fileZone bs fs'.disk (Minix3.getInode bs fs'.disk n) 0)
  marks (z : Word) : Marked bs fs.disk z → Marked bs fs'.disk z
  takes (z : Word) : Marked bs fs'.disk z → Marked bs fs.disk z ∨
    z ∈ treeZones bs fs'.disk (Minix3.getInode bs fs'.disk parent) ∨
    z ∈ treeZones bs fs'.disk (Minix3.getInode bs fs'.disk n)

theorem Made.tree (h : Made bs fs parent n fname fs') (ht : Tree bs fs.disk)
    (hp : Reachable bs fs.disk parent) : Tree bs fs'.disk := by
  refine ht.add hp h.consistent h.inUse h.mode h.directory (fun d hd name k hk => ?_) fun _ => ?_
  · exact ((h.bound d hd name k).mp hk).imp id fun hnew => hnew.2.2
  · refine ⟨h.childDirectory, fun name k hk => ?_⟩
    exact ((h.childBound name k).mp hk).imp And.right And.right

/-- Only the new directory is new. -/
theorem Made.reachable_old (h : Made bs fs parent n fname fs') (ht : Tree bs fs.disk)
    (hp : Reachable bs fs.disk parent) (hd : Reachable bs fs'.disk d) (hdn : d ≠ n) :
    Reachable bs fs.disk d := by
  have hcase := ht.reachable_add hp h.mode
    (fun d hd name k hk => ((h.bound d hd name k).mp hk).imp id fun hnew => hnew.2.2)
    (fun _ name k hk => ((h.childBound name k).mp hk).imp And.right And.right) hd
  exact hcase.resolve_right fun hnew => hdn hnew.1

theorem Made.reachable (h : Made bs fs parent n fname fs') (ht : Tree bs fs.disk)
    (hd : Reachable bs fs.disk d) : Reachable bs fs'.disk d :=
  ht.reachable_mono h.mode (fun d hd name k hk => (h.bound d hd name k).mpr (Or.inl hk)) hd

theorem dotDot_ne_dot : dotDot ≠ dot := fun h => absurd (congrArg CString.chars h) (by decide)

/-- No file but the new directory is written. -/
theorem furnished_kept (hlinks : Relinked bs fs₂.disk
    (fun m => (if m = parent then 1 else 0) + if m = n then 1 else 0) fs₄.disk)
    (hdot : EntryAppended bs fs₄ n n dot fs₅) (hdotDot : EntryAppended bs fs₅ n parent dotDot fs')
    {m : Word} (hm : InUse bs fs₂.disk m) (hmn : m ≠ n) :
    Linked bs fs₂.disk fs'.disk m (if m = parent then 1 else 0) := by
  have hm₄ := (hlinks.inUse m).mpr hm
  have hm₅ := (hdot.appended.grew.inUse m).mpr hm₄
  have hall := ((hlinks.linked m hm).trans (.of_same (hdot.appended.grew.other m hm₄ hmn))).trans
    (.of_same (hdotDot.appended.grew.other m hm₅ hmn))
  rwa [if_neg hmn, add_zero, add_zero, add_zero] at hall

/-- What the new directory has become. -/
structure NewDirectory (bs : ℕ) (disk₄ : Mem) (parent n : Word) (disk' : Mem) : Prop where
  isDirectory : isDirectory bs disk' n = true
  directory : Directory bs disk' (Minix3.getInode bs disk' n)
  size : (Minix3.getInode bs disk' n).size.toNat = 2 * dirEntrySize
  bound (name : CString) (k : Word) : BoundTo bs disk' n name k ↔
    (name = dot ∧ k = n) ∨ (name = dotDot ∧ k = parent)
  tree (p : Node) : p.In bs → nodeZone bs disk' (Minix3.getInode bs disk' n) p ≠ 0 → p = .data 0
  zone : ¬ Marked bs disk₄ (fileZone bs disk' (Minix3.getInode bs disk' n) 0)
  takes (z : Word) : Marked bs disk' z → Marked bs disk₄ z ∨
    z ∈ treeZones bs disk' (Minix3.getInode bs disk' n)

theorem newDirectory (hc : Consistent bs fs₄.disk) (hn : InUse bs fs₄.disk n)
    (hblock : ∃ k, bs = 2 ^ k * dirEntrySize) (hbs : 2 * dirEntrySize ≤ bs) (hparent : parent ≠ 0)
    (hdir : isDirectory bs fs₄.disk n = true) (hsize : (Minix3.getInode bs fs₄.disk n).size = 0)
    (hempty : ∀ i, (Minix3.getInode bs fs₄.disk n).zones i = 0)
    (hdot : EntryAppended bs fs₄ n n dot fs₅) (hdotDot : EntryAppended bs fs₅ n parent dotDot fs') :
    NewDirectory bs fs₄.disk parent n fs'.disk := by
  have hn₅ := (hdot.appended.grew.inUse n).mpr hn
  have hzero : (Minix3.getInode bs fs₄.disk n).size.toNat = 0 := by rw [hsize]; rfl
  -- the bindings, one entry after the other
  obtain ⟨hd₄, hnone⟩ := empty_directory (hc.sound hn (empty_whole hempty hsize)) hblock hsize
  have he₅ := hdot.appended.extended hn hd₄
  have hbound₅ (name : CString) (k : Word) : BoundTo bs fs₅.disk n name k ↔ name = dot ∧ k = n := by
    rw [BoundTo, he₅.binds_iff hd₄ hn.1.1 (by decide)]
    exact or_iff_right (hnone name k)
  have hd₅ := he₅.directory hd₄ hn.1.1 (by decide) (hnone dot)
  have he' := hdotDot.appended.extended hn₅ hd₅
  have hfresh (k : Word) : ¬ Binds bs fs₅.disk (Minix3.getInode bs fs₅.disk n) dotDot k :=
    fun hk => dotDot_ne_dot ((hbound₅ dotDot k).mp hk).1
  -- the second entry takes no zone
  have hpart : ¬ bs ∣ (Minix3.getInode bs fs₅.disk n).size.toNat := by
    rw [he₅.size, hzero]
    intro hdvd
    have hle := Nat.le_of_dvd (by decide) hdvd
    unfold dirEntrySize at *
    omega
  obtain ⟨hmap, hnodes⟩ := hdotDot.takes.within hpart
  have hroots := hdot.takes.roots hzero
  have hl := hc.layout.toZoneLayout
  refine ⟨?_, he'.directory hd₅ hparent (by decide) hfresh, ?_, fun name k => ?_,
    fun p hp hz => ?_, ?_, fun z hz => ?_⟩
  · rw [isDirectory, hdotDot.appended.rest, hdot.appended.rest]
    exact hdir
  · rw [he'.size, he₅.size, hzero]
    rfl
  · rw [BoundTo, he'.binds_iff hd₅ hparent (by decide)]
    exact or_congr (hbound₅ name k) Iff.rfl
  · rw [hnodes p hp] at hz
    exact single_node (fun r hr => (hroots r hr).trans (hempty r)) hz
  · have hin : (Node.data 0).In bs := data_in_front (Nat.lt_of_lt_of_le (by decide : 0 < 7)
      (Nat.le_add_right 7 _))
    have hzone : fileZone bs fs'.disk (Minix3.getInode bs fs'.disk n) 0
        = nodeZone bs fs₅.disk (Minix3.getInode bs fs₅.disk n) (.data 0) := hnodes (.data 0) hin
    rw [hzone]
    intro hmarked
    rcases hdot.takes.origin (.data 0) hin (hl.ne_zero hmarked.1) with heq | hno
    · rw [heq, empty_node hempty] at hmarked
      exact hl.ne_zero hmarked.1 rfl
    · exact hno hmarked
  · rcases hdot.takes.uses z (hmap.marked_iff.mp hz) with hold | hnot | ⟨p, hp, rfl⟩
    · exact Or.inl hold
    · exact absurd hnot (Set.notMem_empty z)
    · exact Or.inr ⟨p, hp, hnodes p hp⟩

theorem made (ht : Tree bs fs.disk) (hp : Reachable bs fs.disk parent)
    (hfits : fname.chars.length < MX3_NAME_LEN) (hno : ¬ Bound bs fs.disk parent fname)
    (he : Entered bs fs parent n fname inode fs₂)
    (hlinks : Relinked bs fs₂.disk
      (fun m => (if m = parent then 1 else 0) + if m = n then 1 else 0) fs₄.disk)
    (hdot : EntryAppended bs fs₄ n n dot fs₅) (hdotDot : EntryAppended bs fs₅ n parent dotDot fs')
    (hchild : NewDirectory bs fs₄.disk parent n fs'.disk) :
    Made bs fs parent n fname fs' := by
  have hc := hdotDot.appended.grew.consistent
  have huse (m : Word) : InUse bs fs'.disk m ↔ m = n ∨ InUse bs fs.disk m :=
    (hdotDot.appended.grew.inUse m).trans ((hdot.appended.grew.inUse m).trans
      ((hlinks.inUse m).trans (he.inUse m)))
  have hkept (m : Word) (hm : InUse bs fs.disk m) :
      Linked bs fs₂.disk fs'.disk m (if m = parent then 1 else 0) :=
    furnished_kept hlinks hdot hdotDot ((he.inUse m).mpr (Or.inr hm)) fun heq =>
      he.fresh.not_inUse (heq ▸ hm)
  have hpkept := hkept parent (ht.reachable hp).1
  rw [if_pos rfl] at hpkept
  have hbefore (z : Word) (hz : Marked bs fs.disk z) : Marked bs fs₄.disk z :=
    hlinks.map.marked_iff.mpr (he.marks z hz)
  have hsuper := hdotDot.appended.grew.super.trans (hdot.appended.grew.super.trans
    (hlinks.map.super.trans he.super))
  refine ⟨he.fresh, hsuper, hc, huse, fun m hm hmp => ?_, fun m hm => ?_, ?_, fun d hd => ?_,
    fun d hd name k => ?_, hchild.isDirectory, hchild.directory, hchild.size, hchild.bound,
    hchild.tree, fun hmarked => hchild.zone (hbefore _ hmarked), fun z hz => ?_, fun z hz => ?_⟩
  · have hall := (he.other m hm hmp).trans (hkept m hm)
    rwa [if_neg hmp, add_zero] at hall
  · exact (hkept m hm).isDirectory.trans (he.isDirectory hm)
  · rw [hpkept.nlinks, he.rest]
  · exact (hkept d (ht.reachable hd).1).directory hc.layout.toZoneLayout
      (he.directory ht hfits hno hd)
  · rw [(hkept d (ht.reachable hd).1).boundTo_iff (he.directory ht hfits hno hd)]
    exact he.boundTo_iff ht hfits hd
  · exact hdotDot.takes.marks z (hdot.takes.marks z (hbefore z hz))
  · rcases hchild.takes z hz with hold | hnew
    · rw [hpkept.tree]
      exact (he.takes z (hlinks.map.marked_iff.mp hold)).imp id Or.inl
    · exact Or.inr (Or.inr hnew)

theorem found_ofFound (found : Option (Word × Inode)) : (Lookup.ofFound found).found = found := by
  cases found with
  | none => rfl
  | some p =>
    simp only [Lookup.ofFound]
    split <;> rfl

theorem unknown_ensures : Ensures ∅ (At fs) unknown fun _ => At fs := by
  apply (computes_onData guess).ensures
  rintro m rfl
  exact ⟨_, _, rfl, rfl⟩

/-- Both inodes are written with one more link. -/
theorem link_both {own : Finset ℕ} {rest : Op ℕ} {Q : ℕ → Machine → Prop}
    (hc : Consistent dev.bs fs.disk) (hp : InUse dev.bs fs.disk parent)
    (hn : InUse dev.bs fs.disk n) (hne : n ≠ parent) (hfree : FreeAhead dev.bs fs l)
    (h : ∀ fs₄ : Fs, Relinked dev.bs fs.disk
        (fun m => (if m = parent then 1 else 0) + if m = n then 1 else 0) fs₄.disk →
      FreeAhead dev.bs fs₄ l → Ensures own (At fs₄) rest Q) :
    Ensures own (At fs) (do
      let _ ← putInode dev parent { Minix3.getInode dev.bs fs.disk parent with
        nlinks := (Minix3.getInode dev.bs fs.disk parent).nlinks + 1 }
      let _ ← putInode dev n { Minix3.getInode dev.bs fs.disk n with
        nlinks := (Minix3.getInode dev.bs fs.disk n).nlinks + 1 }
      rest) Q := by
  have hrelink := hc.relink hp 1
  have hsame := hrelink.linked n hn
  rw [if_neg hne] at hsame
  have hboth := hrelink.trans (hrelink.consistent.relink ((hrelink.inUse n).mpr hn) 1)
  rw [hsame.inode] at hboth
  simp only [add_zero] at hboth
  apply (putInode_ensures parent _).bind
  intro _
  apply (putInode_ensures n _).bind
  intro _
  exact h _ hboth (hfree.congr hboth.map)

/-- The end of the call: the entries of an empty directory. -/
theorem furnish {dir new_inode : ℕ} (hne : dir ≠ new_inode) (hc : Consistent dev.bs fs₄.disk)
    (hn : InUse dev.bs fs₄.disk n) (hblock : ∃ k, dev.bs = 2 ^ k * dirEntrySize)
    (hbs : 2 * dirEntrySize ≤ dev.bs)
    (hsize : (Minix3.getInode dev.bs fs₄.disk n).size = 0)
    (hempty : ∀ i, (Minix3.getInode dev.bs fs₄.disk n).zones i = 0)
    (hfree : FreeAhead dev.bs fs₄ (l + 1)) :
    Ensures (insert new_inode (insert dir ∅)) (At fs₄) (do
      kfree dir
      kfree new_inode
      let new_dot ← kcalloc dev
      let new_dot_dot ← kcalloc dev
      let _ ← appendToFile dev n (dirEntry n dot) (BitVec.ofNat 32 dirEntrySize)
      let _ ← appendToFile dev n (dirEntry parent dotDot) (BitVec.ofNat 32 dirEntrySize)
      kfree new_dot
      kfree new_dot_dot
      pure 0) fun r m => r = 0 ∧ FreeAhead dev.bs m.fs l ∧
        ∃ fs₅, EntryAppended dev.bs fs₄ n n dot fs₅ ∧
          EntryAppended dev.bs fs₅ n parent dotDot m.fs := by
  have hzero : (Minix3.getInode dev.bs fs₄.disk n).size.toNat = 0 := by rw [hsize]; rfl
  obtain ⟨hd₄, hnone⟩ := empty_directory (hc.sound hn (empty_whole hempty hsize)) hblock hsize
  have hfront : 2 * dirEntrySize ≤ blockStart dev.bs (1 + ppz dev.bs) * dev.bs := by
    refine hbs.trans (Nat.le_mul_of_pos_left _ ?_)
    exact Nat.lt_of_lt_of_le (by decide : 0 < 7) (Nat.le_add_right 7 _)
  rw [Finset.insert_comm]
  apply Ensures.release
  · rw [Finset.mem_insert, not_or]
    exact ⟨hne, Finset.notMem_empty dir⟩
  apply Ensures.release (Finset.notMem_empty new_inode)
  apply Ensures.allocate
  intro new_dot hdot
  apply Ensures.allocate
  intro new_dot_dot hdotDot
  -- the first entry takes the zone
  have hcost : growCost dev.bs 0 dirEntrySize = 1 := by
    have hblockCost : growCost dev.bs (0 * dev.bs) dirEntrySize = blockCost dev.bs 0 + 1 :=
      growCost_block (by decide) (by unfold dirEntrySize at *; omega) 0
    rw [Nat.zero_mul] at hblockCost
    rw [hblockCost, blockCost, if_neg (by unfold blockStart; omega), if_neg (by omega)]
  apply (append_entry dot hc hn hd₄ (by rw [fileSize, hzero]; omega)
    (by rw [fileSize, hzero, hcost]; exact hfree)).bind
  intro _
  apply ensures_at (P := fun fs₅ => EntryAppended dev.bs fs₄ n n dot fs₅ ∧ FreeAhead dev.bs fs₅ l)
  rintro fs₅ ⟨h₅, hfree₅⟩
  have hn₅ := (h₅.appended.grew.inUse n).mpr hn
  have he₅ := h₅.appended.extended hn hd₄
  have hd₅ := he₅.directory hd₄ hn.1.1 (by decide) (hnone dot)
  have hsize₅ : fileSize dev.bs fs₅.disk n = dirEntrySize := by
    rw [fileSize, he₅.size, hzero, Nat.zero_add]
  have hcost₅ : growCost dev.bs dirEntrySize dirEntrySize = 0 := by
    have hfill := growCost_fill (by decide : 0 < dirEntrySize) (Nat.two_mul dirEntrySize ▸ hbs) 0
    rwa [Nat.zero_mul, Nat.zero_add] at hfill
  apply (append_entry dotDot h₅.appended.grew.consistent hn₅ hd₅ (by rw [hsize₅]; omega)
    (by rw [hsize₅, hcost₅]; exact hfree₅)).bind
  intro _
  rw [Finset.insert_comm]
  apply Ensures.release
  · rw [Finset.mem_insert, not_or]
    exact ⟨fun heq => hdotDot (heq ▸ Finset.mem_insert_self _ _), Finset.notMem_empty new_dot⟩
  apply Ensures.release (Finset.notMem_empty new_dot_dot)
  exact ensures_pure _ fun m h => ⟨rfl, h.2, fs₅, h₅, h.1⟩

/-- A name that is bound is refused; otherwise the call returns 0. -/
theorem mkdir_sound (ht : Tree dev.bs fs.disk) (hp : Reachable dev.bs fs.disk parent)
    (hcan : CanTouch dev.bs fs parent (l + 1)) (hbs : 2 * dirEntrySize ≤ dev.bs)
    (hfits : fname.chars.length < MX3_NAME_LEN) :
    Ensures ∅ (At fs) (mkdir dev parent fname) fun r m =>
      (r = 4 ∧ Bound dev.bs fs.disk parent fname ∧ At fs m) ∨
      (r = 0 ∧ ¬ Bound dev.bs fs.disk parent fname ∧
        ∃ n, Made dev.bs fs parent n fname m.fs ∧ FreeAhead dev.bs m.fs l) := by
  apply (touchCommon_sound ht hp hcan).bind
  intro retval
  apply ensures_at (P := fun fs' => (retval = 4 ∧ Bound dev.bs fs.disk parent fname ∧ fs' = fs) ∨
    (retval = 0 ∧ ¬ Bound dev.bs fs.disk parent fname ∧
      ∃ n, Entered dev.bs fs parent n fname (newInode (MX3_MODE_DIRECTORY ||| MX3_777)
        MX3_UID_MISHLER MX3_GID_MISHLER) fs' ∧ FreeAhead dev.bs fs' (l + 1)))
  rintro fs₂ (⟨rfl, hbound, rfl⟩ | ⟨rfl, hno, n, he, hfree⟩)
  · exact ensures_pure _ fun m hm => Or.inl ⟨rfl, hbound, hm⟩
  rw [if_neg (not_not.mpr rfl)]
  have hpuse := (ht.reachable hp).1
  have hne := he.not_parent ht hp
  have hpdir := (he.isDirectory hpuse).trans (ht.reachable hp).2
  have hbound : BoundTo dev.bs fs₂.disk parent fname n :=
    (he.boundTo_iff ht hfits hp).mpr (Or.inr ⟨rfl, rfl, rfl⟩)
  apply Ensures.allocate
  intro dir hdir
  apply Ensures.allocate
  intro new_inode hnew
  apply (getInode_ensures parent).step
  dsimp only
  apply unknown_ensures.bind
  intro stack
  apply (getInodeFromName_sound (he.directory ht hfits hno hp) hpdir fname).bind
  intro lookup
  apply Ensures.given
  intro hfinds
  rw [hfinds.bound n hbound, found_ofFound, Option.getD_some]
  dsimp only
  have hn₂ := (he.inUse n).mpr (Or.inl rfl)
  apply link_both he.consistent ((he.inUse parent).mpr (Or.inr hpuse)) hn₂ hne hfree
  intro fs₄ hlinks hfree₄
  have hn₄ := (hlinks.inUse n).mpr hn₂
  have hown := hlinks.linked n hn₂
  have hblock := (ht.directory parent hp).block
  have hempty : ∀ i, (Minix3.getInode dev.bs fs₄.disk n).zones i = 0 := by
    rw [hown.zones, he.own]
    exact fun _ => rfl
  have hsize : (Minix3.getInode dev.bs fs₄.disk n).size = 0 := by
    rw [hown.size, he.own]
    rfl
  have hchildDir : isDirectory dev.bs fs₄.disk n = true := by
    rw [isDirectory, hown.isDirectory, he.own]
    rfl
  have hapart : dir ≠ new_inode := by
    rintro rfl
    exact hnew (Finset.mem_insert_self dir ∅)
  apply (furnish hapart hlinks.consistent hn₄ hblock hbs hsize hempty hfree₄).weaken
  rintro r m ⟨hr, hfree', fs₅, hdot, hdotDot⟩
  have hchild := newDirectory hlinks.consistent hn₄ hblock hbs hpuse.1.1 hchildDir hsize hempty
    hdot hdotDot
  exact Or.inr ⟨hr, hno, n, made ht hp hfits hno he hlinks hdot hdotDot hchild, hfree'⟩

end Making

end FileOps

end Minix3
