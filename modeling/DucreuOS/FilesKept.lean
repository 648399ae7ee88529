import DucreuOS.ConsistentCalls

/-! # Files under calls on names

What `minix3_touch_reg`, `minix3_mkdir`, `minix3_rm` and `minix3_rmdir` leave in all files: those
that stay keep their bytes, a new file has none, and a new directory has no plain name. -/
namespace Minix3

open ByteMemory LiveBlocks

/-- The bytes of the file with this inode. -/
abbrev bytesOf (bs : ℕ) (disk : Mem) (n : Word) : List Byte :=
  contents bs disk (getInode bs disk n)

theorem Linked.bytes {bs : ℕ} {disk disk' : Mem} {m : Word} {d : BitVec 16}
    (h : Linked bs disk disk' m d) (hpos : 0 < bs) (hw : Whole bs disk (getInode bs disk m)) :
    bytesOf bs disk' m = bytesOf bs disk m :=
  contents_congr hpos hw h.size fun j hj hz => ⟨h.node hj, h.kept.bytes (.data j) hj hz⟩

namespace FileOps

structure KeepsFiles (bs : ℕ) (disk disk' : Mem) : Prop where
  kept (m : Word) : InUse bs disk m → InUse bs disk' m → isDirectory bs disk m = false →
    bytesOf bs disk' m = bytesOf bs disk m
  empty (m : Word) : ¬ InUse bs disk m → InUse bs disk' m → isDirectory bs disk' m = false →
    bytesOf bs disk' m = []
  bare (m : Word) : ¬ InUse bs disk m → InUse bs disk' m → isDirectory bs disk' m = true →
    ∀ name k, BoundTo bs disk' m name k → ¬ Plain name ∧ (k = m ∨ Reachable bs disk k)

section Kept

variable {bs : ℕ} {fs fs' : Fs} {disk disk' : Mem} {parent n : Word} {name : CString}
  {S : Set Word} {c : BitVec 16}

theorem KeepsFiles.refl (bs : ℕ) (disk : Mem) : KeepsFiles bs disk disk where
  kept _ _ _ _ := rfl
  empty _ hno hm := absurd hm hno
  bare _ hno hm := absurd hm hno

/-- The parent directory is no file. -/
theorem not_parent_of_file {m : Word} (hp : isDirectory bs disk parent = true)
    (hm : isDirectory bs disk m = false) : m ≠ parent := by
  intro heq
  rw [heq, hp] at hm
  cases hm

variable (h : Hierarchy bs fs.disk) (hp : Reachable bs fs.disk parent)

include h hp

theorem Entered.keepsFiles {inode : Inode} (he : Entered bs fs parent n name inode fs')
    (hsize : inode.size = 0) (hfile : inode.isDirectory = false) :
    KeepsFiles bs fs.disk fs'.disk := by
  have hnew {m : Word} (hno : ¬ InUse bs fs.disk m) (hm : InUse bs fs'.disk m) : m = n :=
    ((he.inUse m).mp hm).resolve_right hno
  refine ⟨fun m hm _ hmf => ?_, fun m hno hm _ => ?_, fun m hno hm hdir => ?_⟩
  · have hmp := not_parent_of_file (h.reachable hp).2 hmf
    exact (he.other m hm hmp).bytes h.layout.pos (h.whole m hm)
  · obtain rfl := hnew hno hm
    exact empty_contents (he.own ▸ hsize)
  · obtain rfl := hnew hno hm
    rw [FileOps.isDirectory, he.own, hfile] at hdir
    cases hdir

theorem Made.keepsFiles (hm : Made bs fs parent n name fs') : KeepsFiles bs fs.disk fs'.disk := by
  have hnew {m : Word} (hno : ¬ InUse bs fs.disk m) (huse : InUse bs fs'.disk m) : m = n :=
    ((hm.inUse m).mp huse).resolve_right hno
  refine ⟨fun m huse _ hmf => ?_, fun m hno huse hmf => ?_, fun m hno huse _ other k hk => ?_⟩
  · have hmp := not_parent_of_file (h.reachable hp).2 hmf
    exact (hm.other m huse hmp).bytes h.layout.pos (h.whole m huse)
  · obtain rfl := hnew hno huse
    rw [hm.child] at hmf
    cases hmf
  · obtain rfl := hnew hno huse
    rcases (hm.childBound other k).mp hk with ⟨rfl, rfl⟩ | ⟨rfl, rfl⟩
    · exact ⟨fun hplain => hplain.1 rfl, Or.inl rfl⟩
    · exact ⟨fun hplain => hplain.2 rfl, Or.inr hp⟩

theorem NodeRemoved.keepsFiles (hr : NodeRemoved bs fs.disk parent n S c disk') :
    KeepsFiles bs fs.disk disk' where
  kept m hm hm' hmf :=
    have hmp := not_parent_of_file (h.reachable hp).2 hmf
    (hr.other m hm ((hr.inUse m).mp hm').2 hmp).bytes h.layout.pos (h.whole m hm)
  empty m hno hm := absurd ((hr.inUse m).mp hm).1 hno
  bare m hno hm := absurd ((hr.inUse m).mp hm).1 hno

end Kept

/-! ## The calls -/

section Calls

variable {dev : Mount} {fs : Fs} {parent : Word} {name : CString}
  (h : Hierarchy dev.bs fs.disk) (hp : Reachable dev.bs fs.disk parent)

include h hp

theorem touchReg_keepsFiles
    (hcan : Bound dev.bs fs.disk parent name ∨ CanTouch dev.bs fs parent 0) :
    Ensures ∅ (At fs) (touchReg dev parent name) fun _ m => KeepsFiles dev.bs fs.disk m.fs.disk := by
  by_cases hb : Bound dev.bs fs.disk parent name
  · apply (touchCommon_bound h.toTree hp hb).weaken
    rintro _ _ ⟨-, rfl⟩
    exact .refl _ _
  apply (touchCommon_sound h.toTree hp (hcan.resolve_left hb)).weaken
  rintro _ _ (⟨-, hbound, -⟩ | ⟨-, -, n, he, -⟩)
  · exact absurd hbound hb
  · exact he.keepsFiles h hp rfl rfl

theorem mkdir_keepsFiles (hfits : name.chars.length < MX3_NAME_LEN)
    (hmeets : (NameCall.mkdir name).Meets dev parent fs) :
    Ensures ∅ (At fs) (mkdir dev parent name) fun _ m => KeepsFiles dev.bs fs.disk m.fs.disk := by
  by_cases hb : Bound dev.bs fs.disk parent name
  · apply (mkdir_bound h.toTree hp hb).weaken
    rintro _ _ ⟨-, rfl⟩
    exact .refl _ _
  obtain ⟨hcan, hbs⟩ := hmeets.resolve_left hb
  apply (mkdir_sound h.toTree hp hcan hbs hfits).weaken
  rintro _ _ (⟨-, hbound, -⟩ | ⟨-, -, n, hm, -⟩)
  · exact absurd hbound hb
  · exact hm.keepsFiles h hp

theorem rm_keepsFiles (hmeets : (NameCall.rm name).Meets dev parent fs) :
    Ensures ∅ (At fs) (rm dev parent name) fun _ m => KeepsFiles dev.bs fs.disk m.fs.disk := by
  by_cases hb : BoundToFile dev.bs fs.disk parent name
  · obtain ⟨n, hb, hfile⟩ := hb
    have hplain := h.plain_of_file hp hb hfile
    have honly := h.onlyName hp hplain hb fun hdir => absurd hdir (by simp [hfile])
    have hwhole := h.whole n (h.entry parent n name hp hb)
    apply (rm_sound h.toTree hp hb hfile hwhole (hmeets n hb hfile) honly).weaken
    exact fun _ _ hr => hr.2.keepsFiles h hp
  · apply (rm_returns h.toTree hp name).weaken
    rintro _ _ (⟨-, hfile⟩ | ⟨-, -, rfl⟩)
    · exact absurd hfile hb
    · exact .refl _ _

theorem rmdir_keepsFiles (hname : Plain name) :
    Ensures ∅ (At fs) (rmdir dev parent name) fun _ m => KeepsFiles dev.bs fs.disk m.fs.disk := by
  by_cases hb : ∃ n, BoundTo dev.bs fs.disk parent name n ∧
    isDirectory dev.bs fs.disk n = true ∧ Removable dev.bs fs.disk n
  · obtain ⟨n, hb, hdir, hremovable⟩ := hb
    have honly := h.onlyName hp hname hb fun _ => hremovable.size
    have hne := h.not_own hp hname hb hremovable.size
    apply (rmdir_sound h.toTree hp hb hdir hremovable hne honly).weaken
    exact fun _ _ hr => hr.2.keepsFiles h hp
  · apply (rmdir_returns h.toTree hp name).weaken
    intro r m hreturns
    cases hreturns with
    | notFound _ hm | file _ hm | refused _ _ _ _ hm => exact hm ▸ .refl _ _
    | removed hn hdir hremovable => exact absurd ⟨_, hn, hdir, hremovable⟩ hb

theorem NameCall.keepsFiles (c : NameCall) (hfits : c.Fits) (hmeets : c.Meets dev parent fs) :
    Ensures ∅ (At fs) (c.run dev parent) fun _ m => KeepsFiles dev.bs fs.disk m.fs.disk := by
  cases c with
  | touch name => exact touchReg_keepsFiles h hp hmeets
  | mkdir name => exact mkdir_keepsFiles h hp hfits.1 hmeets
  | rm name => exact rm_keepsFiles h hp hmeets
  | rmdir name => exact rmdir_keepsFiles h hp hfits.2

end Calls

end FileOps

end Minix3
