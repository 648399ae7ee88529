import DucreuOS.MakeRemove
import DucreuOS.RemoveFile

/-! # A hierarchy of directories

Every directory has the names `.` and `..`, every other name is the only one for its inode, and the
zones of every file are those of its size. The calls keep it so. -/
namespace Minix3

theorem Linked.whole {bs : ℕ} {disk disk' : ByteMemory.Mem} {m : Word} {d : BitVec 16}
    (h : Linked bs disk disk' m d) (hw : Whole bs disk (getInode bs disk m)) :
    Whole bs disk' (getInode bs disk' m) :=
  hw.congr h.size fun _ hi => h.node hi

namespace FileOps

open ByteMemory LiveBlocks

section Hierarchies

variable {bs : ℕ} {fs fs' : Fs} {disk disk' : Mem} {parent n d k : Word} {name a b : CString}
  {S : Set Word} {c : BitVec 16}

/-- Neither `.` nor `..`. -/
def Plain (name : CString) : Prop := name ≠ dot ∧ name ≠ dotDot

/-- `p` is the directory that `d` is in. -/
def Above (bs : ℕ) (disk : Mem) (p d : Word) : Prop :=
  (p = 1 ∧ d = 1) ∨ ∃ name, Plain name ∧ BoundTo bs disk p name d

structure Hierarchy (bs : ℕ) (disk : Mem) : Prop extends Tree bs disk where
  whole (m : Word) : InUse bs disk m → Whole bs disk (Minix3.getInode bs disk m)
  own (d : Word) : Reachable bs disk d → BoundTo bs disk d dot d
  up (d : Word) : Reachable bs disk d → ∃ p, BoundTo bs disk d dotDot p ∧
    isDirectory bs disk p = true ∧ Above bs disk p d
  once {d d' k : Word} {a b : CString} : Reachable bs disk d → Reachable bs disk d' →
    Plain a → Plain b → BoundTo bs disk d a k → BoundTo bs disk d' b k → d = d' ∧ a = b
  top (d : Word) (name : CString) : Reachable bs disk d → Plain name → ¬ BoundTo bs disk d name 1

/-! ## The only name -/

/-- Three names take three entries. -/
theorem three_entries {dir : Inode} {x y z : Word} {c : CString} (ha : Binds bs disk dir a x)
    (hb : Binds bs disk dir b y) (hc : Binds bs disk dir c z) (hab : a ≠ b) (hac : a ≠ c)
    (hbc : b ≠ c) : 3 ≤ entries dir := by
  obtain ⟨i, hi, hai, -⟩ := ha
  obtain ⟨j, hj, hbj, -⟩ := hb
  obtain ⟨l, hl, hcl, -⟩ := hc
  have hij : i ≠ j := fun heq => hab (hai.unique (heq ▸ hbj))
  have hil : i ≠ l := fun heq => hac (hai.unique (heq ▸ hcl))
  have hjl : j ≠ l := fun heq => hbc (hbj.unique (heq ▸ hcl))
  omega

namespace Hierarchy

variable (h : Hierarchy bs disk)

include h

/-- The name of a file is a plain one. -/
theorem plain_of_file (hp : Reachable bs disk parent) (hb : BoundTo bs disk parent name n)
    (hfile : isDirectory bs disk n = false) : Plain name := by
  constructor
  · rintro rfl
    obtain rfl := (h.directory parent hp).binds_unique hb (h.own parent hp)
    rw [isDirectory, (h.reachable hp).2] at hfile
    cases hfile
  · rintro rfl
    obtain ⟨p, hup, hdir, -⟩ := h.up parent hp
    obtain rfl := (h.directory parent hp).binds_unique hb hup
    rw [hdir] at hfile
    cases hfile

/-- A directory with a plain name in it is no empty one. -/
theorem two_entries (hd : Reachable bs disk d) (hname : Plain name)
    (hk : BoundTo bs disk d name k) :
    (Minix3.getInode bs disk d).size.toNat ≠ 2 * dirEntrySize := by
  intro hsize
  obtain ⟨p, hup, -⟩ := h.up d hd
  have hthree := three_entries (h.own d hd) hup hk dotDot_ne_dot.symm hname.1.symm hname.2.symm
  rw [entries, hsize] at hthree
  exact absurd hthree (by decide)

theorem onlyName (hp : Reachable bs disk parent) (hname : Plain name)
    (hb : BoundTo bs disk parent name n)
    (hempty : isDirectory bs disk n = true →
      (Minix3.getInode bs disk n).size.toNat = 2 * dirEntrySize) :
    OnlyName bs disk parent name n := by
  intro d hd hdn other hk
  by_cases hplain : Plain other
  · exact h.once hd hp hplain hname hk hb
  -- `.` is for the directory itself, and `..` for one that the directory is in
  exfalso
  rw [Plain, not_and_or, not_not, not_not] at hplain
  rcases hplain with rfl | rfl
  · exact hdn ((h.directory d hd).binds_unique (h.own d hd) hk)
  · obtain ⟨p, hup, hdir, habove⟩ := h.up d hd
    obtain rfl := (h.directory d hd).binds_unique hup hk
    rcases habove with ⟨rfl, rfl⟩ | ⟨c, hc, hcd⟩
    · exact hdn rfl
    · exact h.two_entries (.step hd hup hdir) hc hcd (hempty hdir)

theorem not_own (hp : Reachable bs disk parent) (hname : Plain name)
    (hb : BoundTo bs disk parent name n)
    (hempty : (Minix3.getInode bs disk n).size.toNat = 2 * dirEntrySize) : parent ≠ n := by
  rintro rfl
  exact h.two_entries hp hname hb hempty

/-! ## A name is added -/

theorem plain_of_unbound (hp : Reachable bs disk parent) (hno : ¬ Bound bs disk parent name) :
    Plain name := by
  constructor
  · rintro rfl
    exact hno ⟨parent, h.own parent hp⟩
  · rintro rfl
    obtain ⟨p, hup, -⟩ := h.up parent hp
    exact hno ⟨p, hup⟩

/-- The new name is for a new inode; a new directory has the names `.` and `..`. -/
theorem add {fname : CString} (hp : Reachable bs disk parent) (ht' : Tree bs disk')
    (hwhole : ∀ m, InUse bs disk' m → Whole bs disk' (Minix3.getInode bs disk' m))
    (hfresh : ¬ InUse bs disk n)
    (hmode : ∀ m, InUse bs disk m → isDirectory bs disk' m = isDirectory bs disk m)
    (hreach : ∀ d, Reachable bs disk' d →
      Reachable bs disk d ∨ (d = n ∧ isDirectory bs disk' n = true))
    (hbound : ∀ d, Reachable bs disk d → ∀ name k, BoundTo bs disk' d name k ↔
      BoundTo bs disk d name k ∨ (d = parent ∧ name = fname ∧ k = n))
    (hno : ¬ Bound bs disk parent fname)
    (hown : isDirectory bs disk' n = true → ∀ name k, BoundTo bs disk' n name k ↔
      (name = dot ∧ k = n) ∨ (name = dotDot ∧ k = parent)) : Hierarchy bs disk' := by
  have hplain := h.plain_of_unbound hp hno
  have hnotPlain {name : CString} (hname : Plain name) (hdir : isDirectory bs disk' n = true)
      (k : Word) : ¬ BoundTo bs disk' n name k := by
    intro hk
    rcases (hown hdir name k).mp hk with ⟨rfl, -⟩ | ⟨rfl, -⟩
    · exact hname.1 rfl
    · exact hname.2 rfl
  have hkept (d : Word) (hd : Reachable bs disk d) {name : CString} {k : Word}
      (hk : BoundTo bs disk d name k) : BoundTo bs disk' d name k :=
    (hbound d hd name k).mpr (Or.inl hk)
  refine ⟨ht', hwhole, fun d hd => ?_, fun d hd => ?_, fun {d d' k a b} hd hd' ha hb hk hk' => ?_,
    fun d name hd hname hk => ?_⟩
  · rcases hreach d hd with hold | ⟨rfl, hdir⟩
    · exact hkept d hold (h.own d hold)
    · exact (hown hdir dot d).mpr (Or.inl ⟨rfl, rfl⟩)
  · rcases hreach d hd with hold | ⟨rfl, hdir⟩
    · obtain ⟨p, hup, hpdir, habove⟩ := h.up d hold
      have hpreach : Reachable bs disk p := .step hold hup hpdir
      refine ⟨p, hkept d hold hup, (hmode p (h.reachable hpreach).1).trans hpdir, ?_⟩
      refine habove.imp id ?_
      rintro ⟨c, hc, hcd⟩
      exact ⟨c, hc, hkept p hpreach hcd⟩
    · have hparent := h.reachable hp
      refine ⟨parent, (hown hdir dotDot parent).mpr (Or.inr ⟨rfl, rfl⟩),
        (hmode parent hparent.1).trans hparent.2, Or.inr ⟨fname, hplain, ?_⟩⟩
      exact (hbound parent hp fname d).mpr (Or.inr ⟨rfl, rfl, rfl⟩)
  · rcases hreach d hd with hold | ⟨rfl, hdir⟩
    swap
    · exact absurd hk (hnotPlain ha hdir k)
    rcases hreach d' hd' with hold' | ⟨rfl, hdir⟩
    swap
    · exact absurd hk' (hnotPlain hb hdir k)
    rcases (hbound d hold a k).mp hk with hk | ⟨rfl, rfl, rfl⟩ <;>
      rcases (hbound d' hold' b _).mp hk' with hk' | ⟨rfl, rfl, hkn⟩
    · exact h.once hold hold' ha hb hk hk'
    · exact absurd (h.entry d k a hold hk) (hkn ▸ hfresh)
    · exact absurd (h.entry d' k b hold' hk') hfresh
    · exact ⟨rfl, rfl⟩
  · rcases hreach d hd with hold | ⟨rfl, hdir⟩
    · rcases (hbound d hold name 1).mp hk with hk | ⟨-, -, rfl⟩
      · exact h.top d name hold hname hk
      · exact hfresh h.root.1
    · exact hnotPlain hname hdir 1 hk

/-! ## A name is removed -/

theorem remove (hp : Reachable bs disk parent) (hname : Plain name)
    (hb : BoundTo bs disk parent name n) (honly : OnlyName bs disk parent name n)
    (hr : NodeRemoved bs disk parent n S c disk') : Hierarchy bs disk' := by
  have h1 : n ≠ 1 := fun heq => h.top parent name hp hname (heq ▸ hb)
  have hreach (d : Word) (hd : Reachable bs disk' d) : Reachable bs disk d ∧ d ≠ n :=
    hr.reachable_old h.toTree h1 hd
  have hold {d : Word} (hd : Reachable bs disk' d) {name : CString} {k : Word}
      (hk : BoundTo bs disk' d name k) : BoundTo bs disk d name k :=
    ((hr.bound d (hreach d hd).1 (hreach d hd).2 name k).mp hk).1
  refine ⟨hr.toTree h.toTree h1, fun m hm => ?_, fun d hd => ?_, fun d hd => ?_,
    fun {d d' k a b} hd hd' ha hb hk hk' => ?_, fun d name hd hplain hk => ?_⟩
  · obtain ⟨hm, hmn⟩ := (hr.inUse m).mp hm
    by_cases hmp : m = parent
    · exact hmp ▸ (hr.directory parent hp fun heq => hmn (hmp.trans heq)).sound.whole
    · exact (hr.other m hm hmn hmp).whole (h.whole m hm)
  · obtain ⟨hd, hdn⟩ := hreach d hd
    exact (hr.bound d hd hdn dot d).mpr ⟨h.own d hd, hdn⟩
  · obtain ⟨hd, hdn⟩ := hreach d hd
    obtain ⟨p, hup, hdir, habove⟩ := h.up d hd
    have hpn : p ≠ n := by
      rintro rfl
      exact hname.2 (honly d hd hdn dotDot hup).2.symm
    have hpreach : Reachable bs disk p := .step hd hup hdir
    refine ⟨p, (hr.bound d hd hdn dotDot p).mpr ⟨hup, hpn⟩,
      (hr.isDirectory (h.reachable hpreach).1 hpn).trans hdir, habove.imp id ?_⟩
    rintro ⟨c, hc, hcd⟩
    exact ⟨c, hc, (hr.bound p hpreach hpn c d).mpr ⟨hcd, hdn⟩⟩
  · exact h.once (hreach d hd).1 (hreach d' hd').1 ha hb (hold hd hk) (hold hd' hk')
  · exact h.top d name (hreach d hd).1 hplain (hold hd hk)

/-! ## A file is written -/

/-- No directory is written. -/
theorem keep (hc : Consistent bs disk') (huse : ∀ m, InUse bs disk' m ↔ InUse bs disk m)
    (hmode : ∀ m, InUse bs disk m → isDirectory bs disk' m = isDirectory bs disk m)
    (hwhole : ∀ m, InUse bs disk m → Whole bs disk' (Minix3.getInode bs disk' m))
    (hlinked : ∀ d, Reachable bs disk d → Linked bs disk disk' d 0) : Hierarchy bs disk' := by
  have hbound {d : Word} (hd : Reachable bs disk d) (name : CString) (k : Word) :
      BoundTo bs disk' d name k ↔ BoundTo bs disk d name k :=
    (hlinked d hd).boundTo_iff (h.directory d hd)
  have hreach (d : Word) (hd : Reachable bs disk' d) : Reachable bs disk d := by
    apply reachable_within (R := Reachable bs disk) .root _ hd
    intro d name k hd hk hkdir
    rw [hbound hd] at hk
    rw [hmode k (h.entry d k name hd hk)] at hkdir
    exact .step hd hk hkdir
  have ht' : Tree bs disk' := by
    refine ⟨hc, ⟨(huse 1).mpr h.root.1, (hmode 1 h.root.1).trans h.root.2⟩, fun d hd => ?_,
      fun d k name hd hk => ?_⟩
    · exact (hlinked d (hreach d hd)).directory hc.layout.toZoneLayout (h.directory d (hreach d hd))
    · exact (huse k).mpr (h.entry d k name (hreach d hd) ((hbound (hreach d hd) name k).mp hk))
  refine ⟨ht', fun m hm => hwhole m ((huse m).mp hm), fun d hd => ?_, fun d hd => ?_,
    fun {d d' k a b} hd hd' ha hb hk hk' => ?_, fun d name hd hplain hk => ?_⟩
  · exact (hbound (hreach d hd) dot d).mpr (h.own d (hreach d hd))
  · have hold := hreach d hd
    obtain ⟨p, hup, hdir, habove⟩ := h.up d hold
    have hpreach : Reachable bs disk p := .step hold hup hdir
    refine ⟨p, (hbound hold dotDot p).mpr hup, (hmode p (h.reachable hpreach).1).trans hdir,
      habove.imp id ?_⟩
    rintro ⟨c, hc, hcd⟩
    exact ⟨c, hc, (hbound hpreach c d).mpr hcd⟩
  · exact h.once (hreach d hd) (hreach d' hd') ha hb ((hbound (hreach d hd) a k).mp hk)
      ((hbound (hreach d' hd') b k).mp hk')
  · exact h.top d name (hreach d hd) hplain ((hbound (hreach d hd) name 1).mp hk)

end Hierarchy

/-! ## The calls -/

variable (h : Hierarchy bs fs.disk)

include h

theorem Entered.hierarchy {fname : CString} {inode : Inode}
    (he : Entered bs fs parent n fname inode fs') (hp : Reachable bs fs.disk parent)
    (hfits : fname.chars.length < MX3_NAME_LEN) (hno : ¬ Bound bs fs.disk parent fname)
    (hempty : ∀ i, inode.zones i = 0) (hsize : inode.size = 0)
    (hfile : inode.isDirectory = false) : Hierarchy bs fs'.disk := by
  have ht := h.toTree
  have hnot : FileOps.isDirectory bs fs'.disk n = false := by
    rw [FileOps.isDirectory, he.own, hfile]
  have hbound (d : Word) (hd : Reachable bs fs.disk d) (name : CString) (k : Word) :
      BoundTo bs fs'.disk d name k ↔
        BoundTo bs fs.disk d name k ∨ (d = parent ∧ name = fname ∧ k = n) :=
    he.boundTo_iff ht hfits hd
  apply h.add hp (he.tree ht hfits hno hp hempty hsize) _ he.fresh.not_inUse
    (fun m hm => he.isDirectory hm) _ hbound hno
  · intro hdir
    rw [hnot] at hdir
    cases hdir
  · intro m hm
    rcases (he.inUse m).mp hm with rfl | hold
    · rw [he.own]
      exact empty_whole hempty hsize
    · by_cases hmp : m = parent
      · exact hmp ▸ he.extended.sound.whole
      · exact (he.other m hold hmp).whole (h.whole m hold)
  · intro d hd
    apply ht.reachable_add hp (fun m hm => he.isDirectory hm) _ _ hd
    · exact fun d hd name k hk => ((hbound d hd name k).mp hk).imp id fun hnew => hnew.2.2
    · intro hdir
      rw [hnot] at hdir
      cases hdir

theorem Made.hierarchy {fname : CString} (hm : Made bs fs parent n fname fs')
    (hp : Reachable bs fs.disk parent) (hno : ¬ Bound bs fs.disk parent fname) :
    Hierarchy bs fs'.disk := by
  apply h.add hp (hm.tree h.toTree hp) _ hm.fresh.not_inUse hm.mode _ hm.bound hno
    (fun _ => hm.childBound)
  · intro m hmu
    rcases (hm.inUse m).mp hmu with rfl | hold
    · exact hm.childDirectory.sound.whole
    · by_cases hmp : m = parent
      · exact hmp ▸ (hm.directory parent hp).sound.whole
      · exact (hm.other m hold hmp).whole (h.whole m hold)
  · intro d hd
    by_cases hdn : d = n
    · exact Or.inr ⟨hdn, hm.child⟩
    · exact Or.inl (hm.reachable_old h.toTree hp hd hdn)

theorem hierarchy_appended {bytes : List Byte} (ha : AppendedTo bs fs n bytes fs')
    (hn : InUse bs fs.disk n) (hfile : isDirectory bs fs.disk n = false) :
    Hierarchy bs fs'.disk := by
  have hother (m : Word) (hm : InUse bs fs.disk m) (hmn : m ≠ n) :
      Linked bs fs.disk fs'.disk m 0 := .of_same (ha.grew.other m hm hmn)
  apply h.keep ha.grew.consistent ha.grew.inUse
  · intro m hm
    by_cases hmn : m = n
    · rw [hmn, isDirectory, ha.rest]
      rfl
    · exact (hother m hm hmn).isDirectory
  · intro m hm
    by_cases hmn : m = n
    · exact hmn ▸ ha.whole
    · exact (hother m hm hmn).whole (h.whole m hm)
  · intro d hd
    apply hother d (h.reachable hd).1
    rintro rfl
    rw [isDirectory, (h.reachable hd).2] at hfile
    cases hfile

end Hierarchies

/-! A device with the root directory alone. -/

section Device

variable {full : Bool} {n : Word} {name : CString}

theorem root_dot_named : Named (fileMem 1024 (rootDevice full)
    (Minix3.getInode 1024 (rootDevice full) 1)) dot 0 := by
  refine ⟨by rw [root_inode (by decide)]; decide, by decide, fun o ho => ?_⟩
  have ho1 : o ≤ 1 := ho
  rw [root_byte (by simp only [dirEntrySize]; omega)]
  revert full
  interval_cases o <;> decide

theorem root_dotDot_named : Named (fileMem 1024 (rootDevice full)
    (Minix3.getInode 1024 (rootDevice full) 1)) dotDot 1 := by
  refine ⟨by rw [root_inode (by decide)]; decide, by decide, fun o ho => ?_⟩
  have ho2 : o ≤ 2 := ho
  rw [root_byte (by simp only [dirEntrySize]; omega)]
  revert full
  interval_cases o <;> decide

theorem root_not_plain (hn : BoundTo 1024 (rootDevice full) 1 name n) : ¬ Plain name := by
  obtain ⟨j, hj, hnamed, -⟩ := hn
  rintro ⟨hdot, hdotDot⟩
  have hj2 : j < 2 := hj.trans_eq root_entries
  obtain rfl | rfl : j = 0 ∨ j = 1 := by omega
  · exact hdot (hnamed.unique root_dot_named)
  · exact hdotDot (hnamed.unique root_dotDot_named)

theorem other_size (hn : InTable (rootDevice full) n) (h1 : n ≠ 1) :
    (Minix3.getInode 1024 (rootDevice full) n).size = 0 := by
  have hall : ∀ k : Fin 17, 2 ≤ k →
      (Minix3.getInode 1024 (rootDevice full) (BitVec.ofNat 32 k)).size = 0 := by
    clear hn h1
    revert full
    decide +kernel
  have hpos := hn.pred.2
  have hle : n.toNat ≤ 16 := hn.2.trans_eq (by cases full <;> rfl)
  have hne : n.toNat ≠ 1 := fun heq => h1 (BitVec.eq_of_toNat_eq heq)
  have hsize := hall ⟨n.toNat, by omega⟩ (by rw [Fin.le_def]; change 2 ≤ n.toNat; omega)
  rwa [BitVec.ofNat_toNat, BitVec.setWidth_eq] at hsize

theorem root_hierarchy : Hierarchy 1024 (rootDevice full) := by
  have hown : BoundTo 1024 (rootDevice full) 1 dot 1 :=
    ⟨0, by rw [root_entries]; decide, root_dot_named, root_inode (by decide)⟩
  have hup : BoundTo 1024 (rootDevice full) 1 dotDot 1 :=
    ⟨1, by rw [root_entries]; decide, root_dotDot_named, root_inode (by decide)⟩
  refine ⟨root_tree, fun m hm => ?_, fun d hd => ?_, fun d hd => ?_,
    fun {d d' k a b} hd hd' ha hb hk hk' => ?_, fun d name hd hplain hk => ?_⟩
  · by_cases h1 : m = 1
    · exact h1 ▸ root_whole full
    · exact empty_whole (other_empty full hm.1 h1) (other_size hm.1 h1)
  · obtain rfl := root_reachable hd
    exact hown
  · obtain rfl := root_reachable hd
    exact ⟨1, hup, root_tree.root.2, Or.inl ⟨rfl, rfl⟩⟩
  · obtain rfl := root_reachable hd
    exact absurd ha (root_not_plain hk)
  · obtain rfl := root_reachable hd
    exact absurd hplain (root_not_plain hk)

/-- Inode 2 has no name. -/
theorem late_hierarchy : Hierarchy 1024 lateHeap.data.fs.disk := by
  have hlinked {m : Word} (hm : InUse 1024 (rootDevice true) m) :=
    setInodeUnoccupied_linked root_tree late_used hm
  have hbound {name : CString} {k : Word} : BoundTo 1024 lateHeap.data.fs.disk 1 name k ↔
      BoundTo 1024 (rootDevice true) 1 name k :=
    (hlinked root_tree.root.1).boundTo_iff root_directory
  have hreach {d : Word} (hd : Reachable 1024 lateHeap.data.fs.disk d) : d = 1 := by
    apply reachable_within (R := (· = 1)) rfl _ hd
    rintro d name k rfl hk -
    obtain ⟨j, hj, -, heq⟩ := hbound.mp hk
    exact heq.symm.trans (root_inode (hj.trans_eq root_entries))
  have hroot : Hierarchy 1024 (rootDevice true) := root_hierarchy
  refine ⟨late_tree, fun m hm => ?_, fun d hd => ?_, fun d hd => ?_,
    fun {d d' k a b} hd hd' ha hb hk hk' => ?_, fun d name hd hplain hk => ?_⟩
  · have hold := ((setInodeUnoccupied_inUse (m := m) (root_layout true) late_used).mp hm).1
    exact (hlinked hold).whole (hroot.whole m hold)
  · obtain rfl := hreach hd
    exact hbound.mpr (hroot.own 1 .root)
  · obtain rfl := hreach hd
    exact ⟨1, hbound.mpr ⟨1, by rw [root_entries]; decide, root_dotDot_named,
      root_inode (by decide)⟩, late_tree.root.2, Or.inl ⟨rfl, rfl⟩⟩
  · obtain rfl := hreach hd
    exact absurd ha (root_not_plain (hbound.mp hk))
  · obtain rfl := hreach hd
    exact absurd hplain (root_not_plain (hbound.mp hk))

end Device

end FileOps

end Minix3
