import DucreuOS.DirectoryMap

/-! # Calls on a consistent image

Zones, bitmaps and entries under runs of `minix3_touch_reg`, `minix3_mkdir`, `minix3_rm`,
`minix3_rmdir` and `minix3_append_to_file`, for any parent directories and names. -/
namespace Minix3.FileOps

open ByteMemory LiveBlocks Transition

/-- Every zone that is reached from an inode in use is marked, none is reached twice, and every entry
of a directory is for an inode in use. -/
structure ImageConsistent (bs : ℕ) (disk : Mem) : Prop where
  marked (n : Word) : InUse bs disk n → MarkedZones bs disk (Minix3.getInode bs disk n)
  distinct (n : Word) : InUse bs disk n → DistinctZones bs disk (Minix3.getInode bs disk n)
  apart (m n : Word) : InUse bs disk m → InUse bs disk n → m ≠ n →
    Apart bs disk (Minix3.getInode bs disk m) (Minix3.getInode bs disk n)
  entry (d : Word) : Reachable bs disk d → ∀ j < entries (Minix3.getInode bs disk d),
    entryInode (fileMem bs disk (Minix3.getInode bs disk d)) j ≠ 0 →
      InUse bs disk (entryInode (fileMem bs disk (Minix3.getInode bs disk d)) j)

theorem Tree.imageConsistent {bs : ℕ} {disk : Mem} (ht : Tree bs disk) : ImageConsistent bs disk := by
  refine ⟨ht.marked, ht.distinct, ht.apart, fun d hd j hj hused => ?_⟩
  obtain ⟨name, hnamed⟩ := ((ht.directory d hd).terminated j hj hused).named hused
  exact ht.entry d _ name hd ⟨j, hj, hnamed, rfl⟩

/-! ## The calls -/

inductive ImageCall
  | name (parent : Word) (call : NameCall)
  | append (file_inode_num : Word) (buffer : Mem) (size : Word)

namespace ImageCall

def run (dev : Mount) : ImageCall → Op ℕ
  | name parent call => call.run dev parent
  | append file_inode_num buffer size => appendToFile dev file_inode_num buffer size

/-- The parent directory or the file exists, and a name has at most 59 bytes. -/
def Given (dev : Mount) (fs : Fs) : ImageCall → Prop
  | name parent call => Reachable dev.bs fs.disk parent ∧ call.name.chars.length < MX3_NAME_LEN
  | append file_inode_num _ _ => InUse dev.bs fs.disk file_inode_num

/-- There is room, and what is removed is neither the parent directory itself nor a file with zones
that `minix3_clear_all_zones` misses. -/
def Meets (dev : Mount) (fs : Fs) : ImageCall → Prop
  | name parent (.rmdir dirname) => dirname ≠ dot ∨ ¬ Removable dev.bs fs.disk parent
  | name parent call => call.Meets dev parent fs
  | append n _ size => isDirectory dev.bs fs.disk n = false ∧
      fileSize dev.bs fs.disk n + size.toNat ≤ blockStart dev.bs (1 + ppz dev.bs) * dev.bs ∧
      FreeAhead dev.bs fs (growCost dev.bs (fileSize dev.bs fs.disk n) size.toNat)

end ImageCall

def ImageStep (dev : Mount) (h : Heap ℕ Machine) (c : ImageCall) (h' : Heap ℕ Machine) : Prop :=
  c.Given dev h.data.fs ∧ c.Meets dev h.data.fs ∧ ∃ r, c.run dev h = .ok (r, h')

section Runs

variable {dev : Mount} {fs : Fs} {h h' : Heap ℕ Machine} {parent : Word}

theorem NameCall.keeps_hierarchy (hh : Hierarchy dev.bs fs.disk)
    (hp : Reachable dev.bs fs.disk parent) (c : NameCall) (hfits : c.name.chars.length < MX3_NAME_LEN)
    (hmeets : (ImageCall.name parent c).Meets dev fs) :
    Ensures ∅ (At fs) (c.run dev parent) fun _ m => Hierarchy dev.bs m.fs.disk := by
  cases c with
  | touch name =>
    apply (touchReg_adds hh hp hfits hmeets).weaken
    rintro r m (⟨-, -, rfl⟩ | ⟨-, n, ha⟩)
    · exact hh
    · exact ha.hierarchy
  | mkdir name =>
    apply (mkdir_meets_adds hh hp hfits hmeets).weaken
    rintro r m (⟨-, -, rfl⟩ | ⟨-, n, ha⟩)
    · exact hh
    · exact ha.hierarchy
  | rm name =>
    apply (rm_drops hh hp hmeets).weaken
    rintro r m (⟨-, -, rfl⟩ | ⟨-, n, hd⟩)
    · exact hh
    · exact hd.hierarchy
  | rmdir name =>
    apply (rmdir_drops hh hp hmeets).weaken
    rintro r m (⟨-, rfl⟩ | ⟨-, n, hd⟩)
    · exact hh
    · exact hd.hierarchy

theorem ImageCall.keeps_hierarchy (hh : Hierarchy dev.bs fs.disk) (c : ImageCall)
    (hgiven : c.Given dev fs) (hmeets : c.Meets dev fs) :
    Ensures ∅ (At fs) (c.run dev) fun _ m => Hierarchy dev.bs m.fs.disk := by
  cases c with
  | name parent call => exact call.keeps_hierarchy hh hgiven.1 hgiven.2 hmeets
  | append n buffer size =>
    obtain ⟨hfile, hroom, hfree⟩ := hmeets
    rw [← Nat.zero_add (growCost _ _ _)] at hfree
    have hsound : Ensures ∅ (At fs) (appendToFile dev n buffer size) fun r m => r = 0 ∧
        AppendedTo dev.bs fs n (listed buffer size.toNat) m.fs ∧ FreeAhead dev.bs m.fs 0 :=
      appendToFile_sound hh.toConsistent hgiven (hh.whole n hgiven) hroom hfree
    exact hsound.weaken fun _ m hr => hierarchy_appended hh hr.2.1 hgiven hfile

end Runs

/-- From a hierarchy, every call of a run that removes no `.`, finds room and removes what can be
freed leaves a consistent image, and such a call returns. -/
theorem image_stays_consistent (dev : Mount) (h₀ h : Heap ℕ Machine)
    (hh : Hierarchy dev.bs h₀.data.fs.disk) (hrun : Execution (ImageStep dev) h₀ h) :
    ImageConsistent dev.bs h.data.fs.disk ∧
    ∀ c : ImageCall, c.Given dev h.data.fs → c.Meets dev h.data.fs →
      ∃ r h', c.run dev h = .ok (r, h') ∧ ImageConsistent dev.bs h'.data.fs.disk := by
  have hnow : Hierarchy dev.bs h.data.fs.disk := by
    apply hrun.invariant (I := fun h => Hierarchy dev.bs h.data.fs.disk) _ hh
    rintro s c t hs ⟨hgiven, hmeets, r, hcall⟩
    exact (c.keeps_hierarchy hs hgiven hmeets).returned (Finset.empty_subset _) rfl hcall
  refine ⟨hnow.toTree.imageConsistent, fun c hgiven hmeets => ?_⟩
  obtain ⟨r, h', hcall, -, hh'⟩ :=
    c.keeps_hierarchy hnow hgiven hmeets h (Finset.empty_subset _) rfl
  exact ⟨r, h', hcall, hh'.toTree.imageConsistent⟩

theorem image_stays_consistent_root :
    ImageConsistent 1024 (after (touchReg smallMount 1 fileName) (rootHeap false)).data.fs.disk := by
  have hcan : CanTouch 1024 (rootHeap false).data.fs 1 0 := root_canTouch.mono (Nat.zero_le 7)
  have hstep : ImageStep smallMount (rootHeap false) (.name 1 (.touch fileName))
      (after (touchReg smallMount 1 fileName) (rootHeap false)) :=
    ⟨⟨.root, by decide⟩, Or.inr hcan, 0, outcome_some root_touch⟩
  exact (image_stays_consistent smallMount (rootHeap false) _ root_hierarchy (.single hstep)).1

/-- The heaps behind `mkdir` in the root directory, and `rmdir` of `.` in the new directory. -/
def madeHeap : Heap ℕ Machine := after (mkdir smallMount 1 fileName) (rootHeap false)

def unmadeHeap : Heap ℕ Machine := after (rmdir smallMount 2 dot) madeHeap

theorem made_adds : mkdir smallMount 1 fileName (rootHeap false) = .ok (0, madeHeap) ∧
    Adds 1024 (rootDevice false) 1 2 fileName true madeHeap.data.fs.disk := by
  have hcan : CanTouch 1024 (rootHeap false).data.fs 1 1 := root_canTouch.mono (by decide)
  have hmkdir : mkdir smallMount 1 fileName (rootHeap false) = .ok (0, madeHeap) :=
    outcome_some (by decide +kernel)
  have hadds := (mkdir_adds root_hierarchy .root (by decide) (by decide) (Or.inr hcan)).returned
    (Finset.empty_subset _) rfl hmkdir
  obtain ⟨n, ha⟩ : ∃ n, Adds 1024 (rootDevice false) 1 n fileName true madeHeap.data.fs.disk := by
    rcases hadds with ⟨h4, -⟩ | ⟨-, hn⟩
    · exact absurd h4 (by decide)
    · exact hn
  have hroot : Reachable 1024 madeHeap.data.fs.disk 1 := .root
  have hn : BoundTo 1024 madeHeap.data.fs.disk 1 fileName n :=
    (ha.bound 1 .root fileName n).mpr (Or.inr ⟨rfl, rfl, rfl⟩)
  have hlook : outcome (lookUp smallMount 1 fileName) madeHeap = some (0, some 2) := by
    decide +kernel
  have hrepresents : Represents smallMount 1 madeHeap (directoryMap 1024 madeHeap.data.fs.disk 1) :=
    directoryMap_represents ha.hierarchy.toTree hroot
  rw [hrepresents.answers, NameMap.answer,
    directoryMap_some (ha.hierarchy.directory 1 hroot) hn] at hlook
  obtain rfl : n = 2 := Option.some.inj (congrArg Prod.snd (Option.some.inj hlook))
  exact ⟨hmkdir, ha⟩

/-- The inode is free, and its name stays. -/
theorem rmdir_dot_leaves_entry : Hierarchy 1024 (rootHeap false).data.fs.disk ∧
    CanTouch 1024 (rootHeap false).data.fs 1 7 ∧
    ∃ h₁ h₂, mkdir smallMount 1 fileName (rootHeap false) = .ok (0, h₁) ∧
      Reachable 1024 h₁.data.fs.disk 2 ∧ ImageConsistent 1024 h₁.data.fs.disk ∧
      rmdir smallMount 2 dot h₁ = .ok (0, h₂) ∧ ¬ ImageConsistent 1024 h₂.data.fs.disk := by
  obtain ⟨hmkdir, ha⟩ := made_adds
  have hn : BoundTo 1024 madeHeap.data.fs.disk 1 fileName 2 :=
    (ha.bound 1 .root fileName 2).mpr (Or.inr ⟨rfl, rfl, rfl⟩)
  have hrmdir : rmdir smallMount 2 dot madeHeap = .ok (0, unmadeHeap) :=
    outcome_some (by decide +kernel)
  have hentry : entryInode (fileMem 1024 unmadeHeap.data.fs.disk
      (Minix3.getInode 1024 unmadeHeap.data.fs.disk 1)) 2 = 2 := by decide +kernel
  have hfree : Minix3.isInodeOccupied 1024 unmadeHeap.data.fs.disk 2 = false := by decide +kernel
  refine ⟨root_hierarchy, root_canTouch, madeHeap, unmadeHeap, hmkdir, .step .root hn ha.kind,
    ha.hierarchy.toTree.imageConsistent, hrmdir, fun hbad => ?_⟩
  have huse := hbad.entry 1 .root 2 (by decide +kernel) (by rw [hentry]; decide)
  rw [hentry, InUse, hfree] at huse
  cases huse.2

end Minix3.FileOps
