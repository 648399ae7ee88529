import DucreuOS.DirectoryCalls
import DucreuOS.Library.Transition

/-! # A directory as a finite map

`minix3_get_inode_from_name` in one directory, under calls that add and remove its names. The map is
the purpose of the directory, and every run of the calls refines it. -/
namespace Minix3.FileOps

open ByteMemory LiveBlocks Transition

/-! ## The map -/

deriving instance DecidableEq for CString

/-- The inode for a name, and whether it is a directory. -/
abbrev NameMap := CString → Option (Word × Bool)

/-- The code and the inode number of a look-up. -/
def NameMap.answer (f : NameMap) (name : CString) : ℕ × Option Word :=
  match f name with
  | none => (MX3_RETURN_CODE_NOT_FOUND, none)
  | some (n, b) => (if b then 0 else MX3_RETURN_CODE_NOT_DIRECTORY, some n)

/-- The look-ups in the directory answer as the map. -/
structure Represents (dev : Mount) (dir : Word) (h : Heap ℕ Machine) (f : NameMap) : Prop where
  finite : {name | f name ≠ none}.Finite
  answers (name : CString) : outcome (lookUp dev dir name) h = some (f.answer name)

/-- A call that makes a file or, if `b`, a directory. -/
structure Makes (bs : ℕ) (disk disk' : Mem) (f f' : NameMap) (name : CString) (b : Bool) (r : ℕ) :
    Prop where
  bound : f name ≠ none → r ≠ 0
  failed : r ≠ 0 → disk' = disk
  made : r = 0 → ∃ n, ¬ InUse bs disk n ∧ f' = Function.update f name (some (n, b))
  others (other : CString) : other ≠ name → f' other = f other

/-- A call that removes a file or, if `b`, a directory. -/
structure Unmakes (disk disk' : Mem) (f f' : NameMap) (name : CString) (b : Bool) (r : ℕ) :
    Prop where
  failed : r ≠ 0 → disk' = disk
  removed : r = 0 → ∃ n, f name = some (n, b) ∧ f' = Function.update f name none
  others (other : CString) : other ≠ name → f' other = f other

inductive NameCall
  | touch (name : CString)
  | mkdir (name : CString)
  | rm (name : CString)
  | rmdir (name : CString)

namespace NameCall

def name : NameCall → CString
  | touch name | mkdir name | rm name | rmdir name => name

def run (dev : Mount) (dir : Word) : NameCall → Op ℕ
  | touch name => touchReg dev dir name
  | mkdir name => FileOps.mkdir dev dir name
  | rm name => FileOps.rm dev dir name
  | rmdir name => FileOps.rmdir dev dir name

def Acts (bs : ℕ) (disk disk' : Mem) (f f' : NameMap) (r : ℕ) : NameCall → Prop
  | touch name => Makes bs disk disk' f f' name false r
  | mkdir name => Makes bs disk disk' f f' name true r
  | rm name => Unmakes disk disk' f f' name false r
  | rmdir name => Unmakes disk disk' f f' name true r

/-- At most 59 bytes, and neither `.` nor `..`. -/
def Fits (c : NameCall) : Prop := c.name.chars.length < MX3_NAME_LEN ∧ Plain c.name

/-- A new name finds an inode and zones ahead of the cursors of the searches; the zones of a file
that is removed are those that `minix3_clear_all_zones` frees. -/
def Meets (dev : Mount) (dir : Word) (fs : Fs) : NameCall → Prop
  | touch name => Bound dev.bs fs.disk dir name ∨ CanTouch dev.bs fs dir 0
  | mkdir name => Bound dev.bs fs.disk dir name ∨
      (CanTouch dev.bs fs dir 1 ∧ 2 * dirEntrySize ≤ dev.bs)
  | rm name => ∀ n, BoundTo dev.bs fs.disk dir name n → isDirectory dev.bs fs.disk n = false →
      Shallow dev.bs fs.disk (Minix3.getInode dev.bs fs.disk n)
  | rmdir _ => True

/-- The call returns, and does to the map of the directory what it is to do. -/
def Maps (dev : Mount) (dir : Word) (c : NameCall) (h : Heap ℕ Machine) : Prop :=
  ∃ r h' f f', c.run dev dir h = .ok (r, h') ∧ Represents dev dir h f ∧ Represents dev dir h' f' ∧
    c.Acts dev.bs h.data.fs.disk h'.data.fs.disk f f' r

end NameCall

/-- One call on the directory. -/
def NameStep (dev : Mount) (dir : Word) (h : Heap ℕ Machine) (c : NameCall) (h' : Heap ℕ Machine) :
    Prop :=
  c.Fits ∧ c.Meets dev dir h.data.fs ∧ ∃ r, c.run dev dir h = .ok (r, h')

/-! ## The map of a directory -/

section Directory

variable {dev : Mount} {bs : ℕ} {disk disk' : Mem} {dir n k : Word} {name : CString} {b : Bool}
  {h : Heap ℕ Machine}

open Classical in
noncomputable def directoryMap (bs : ℕ) (disk : Mem) (dir : Word) : NameMap := fun name =>
  if h : Bound bs disk dir name then some (h.choose, isDirectory bs disk h.choose) else none

theorem directoryMap_none (h : ¬ Bound bs disk dir name) : directoryMap bs disk dir name = none :=
  dif_neg h

theorem directoryMap_some (hd : Directory bs disk (Minix3.getInode bs disk dir))
    (hn : BoundTo bs disk dir name n) :
    directoryMap bs disk dir name = some (n, isDirectory bs disk n) := by
  have hb : Bound bs disk dir name := ⟨n, hn⟩
  rw [directoryMap, dif_pos hb, hd.binds_unique hb.choose_spec hn]

theorem directoryMap_iff (hd : Directory bs disk (Minix3.getInode bs disk dir)) :
    directoryMap bs disk dir name = some (n, b) ↔
      BoundTo bs disk dir name n ∧ isDirectory bs disk n = b := by
  by_cases hb : Bound bs disk dir name
  · obtain ⟨k, hk⟩ := hb
    rw [directoryMap_some hd hk, Option.some.injEq, Prod.mk.injEq]
    constructor
    · rintro ⟨rfl, rfl⟩
      exact ⟨hk, rfl⟩
    · rintro ⟨hn, rfl⟩
      obtain rfl := hd.binds_unique hk hn
      exact ⟨rfl, rfl⟩
  · rw [directoryMap_none hb]
    exact iff_of_false (by simp) fun hn => hb ⟨n, hn.1⟩

theorem directoryMap_ne_none : directoryMap bs disk dir name ≠ none ↔ Bound bs disk dir name := by
  by_cases hb : Bound bs disk dir name
  · refine iff_of_true ?_ hb
    rw [directoryMap, dif_pos hb]
    exact Option.some_ne_none _
  · exact iff_of_false (not_not.mpr (directoryMap_none hb)) hb

/-- An entry has one name. -/
theorem bound_finite : {name | Bound bs disk dir name}.Finite := by
  have hentries : (⋃ j ∈ Set.Iio (entries (Minix3.getInode bs disk dir)), {name |
      Named (fileMem bs disk (Minix3.getInode bs disk dir)) name j}).Finite := by
    apply (Set.finite_Iio _).biUnion
    intro j _
    exact Set.Subsingleton.finite fun a ha b hb => Named.unique ha hb
  apply hentries.subset
  rintro name ⟨n, j, hj, hnamed, -⟩
  exact Set.mem_biUnion hj hnamed

theorem directoryMap_represents (ht : Tree dev.bs h.data.fs.disk)
    (hp : Reachable dev.bs h.data.fs.disk dir) :
    Represents dev dir h (directoryMap dev.bs h.data.fs.disk dir) := by
  have hd := ht.directory dir hp
  refine ⟨?_, fun name => ?_⟩
  · simp only [directoryMap_ne_none]
    exact bound_finite
  · have hlook : Ensures ∅ (At h.data.fs) (lookUp dev dir name) fun p m =>
        Answers dev.bs h.data.fs.disk dir name p ∧ At h.data.fs m :=
      lookUp_sound hd (ht.reachable hp).2
    obtain ⟨p, hout, m, hanswers, -⟩ := outcome_of hlook
    rw [hout]
    rcases hanswers with ⟨hno, rfl⟩ | ⟨k, hk, rfl⟩
    · rw [NameMap.answer, directoryMap_none hno]
    · rw [NameMap.answer, directoryMap_some hd hk]

/-! ## What the calls do to the map -/

theorem Adds.map (ha : Adds bs disk dir n name b disk') (ht : Tree bs disk)
    (hp : Reachable bs disk dir) (hp' : Reachable bs disk' dir) :
    directoryMap bs disk' dir = Function.update (directoryMap bs disk dir) name (some (n, b)) := by
  funext other
  apply Option.ext
  rintro ⟨k, c⟩
  rw [directoryMap_iff (ha.hierarchy.directory dir hp'), ha.bound dir hp]
  by_cases hother : other = name
  · subst hother
    rw [Function.update_self, Option.some.injEq, Prod.mk.injEq]
    constructor
    · rintro ⟨hk | ⟨-, -, rfl⟩, rfl⟩
      · exact absurd ⟨k, hk⟩ ha.unbound
      · exact ⟨rfl, ha.kind.symm⟩
    · rintro ⟨rfl, rfl⟩
      exact ⟨Or.inr ⟨rfl, rfl, rfl⟩, ha.kind⟩
  · rw [Function.update_of_ne hother, directoryMap_iff (ht.directory dir hp)]
    constructor
    · rintro ⟨hk | ⟨-, heq, -⟩, rfl⟩
      · exact ⟨hk, (ha.mode k (ht.entry dir k other hp hk)).symm⟩
      · exact absurd heq hother
    · rintro ⟨hk, rfl⟩
      exact ⟨Or.inl hk, ha.mode k (ht.entry dir k other hp hk)⟩

theorem Drops.map (hd : Drops bs disk dir n name b disk') (ht : Tree bs disk)
    (hp : Reachable bs disk dir) (hp' : Reachable bs disk' dir) :
    directoryMap bs disk dir name = some (n, b) ∧
      directoryMap bs disk' dir = Function.update (directoryMap bs disk dir) name none := by
  have hdir := ht.directory dir hp
  have hold : directoryMap bs disk dir name = some (n, b) :=
    (directoryMap_iff hdir).mpr ⟨hd.bound, hd.kind⟩
  refine ⟨hold, ?_⟩
  funext other
  apply Option.ext
  rintro ⟨k, c⟩
  rw [directoryMap_iff (hd.hierarchy.directory dir hp'), hd.left dir hp hd.notParent]
  by_cases hother : other = name
  · subst hother
    rw [Function.update_self]
    refine iff_of_false ?_ (by simp)
    rintro ⟨⟨hk, hkn⟩, -⟩
    exact hkn (hdir.binds_unique hk hd.bound)
  · rw [Function.update_of_ne hother, directoryMap_iff hdir]
    have hkn (hk : BoundTo bs disk dir other k) : k ≠ n := by
      rintro rfl
      exact hother (hd.only dir hp hd.notParent other hk).2
    have hmode (hk : BoundTo bs disk dir other k) :=
      hd.mode k (ht.entry dir k other hp hk) (hkn hk)
    constructor
    · rintro ⟨⟨hk, -⟩, rfl⟩
      exact ⟨hk, (hmode hk).symm⟩
    · rintro ⟨hk, rfl⟩
      exact ⟨⟨hk, hkn hk⟩, hmode hk⟩

theorem Adds.reachable (ha : Adds bs disk dir n name b disk') (ht : Tree bs disk) {d : Word}
    (hd : Reachable bs disk d) : Reachable bs disk' d :=
  ht.reachable_mono ha.mode (fun d hd name k hk => (ha.bound d hd name k).mpr (Or.inl hk)) hd

/-! ## One call -/

variable {f f' : NameMap} {r : ℕ} {fs : Fs}

theorem makes_refused (hr : r ≠ 0) : Makes bs disk disk f f name b r :=
  ⟨fun _ => hr, fun _ => rfl, fun h0 => absurd h0 hr, fun _ _ => rfl⟩

theorem unmakes_refused (hr : r ≠ 0) : Unmakes disk disk f f name b r :=
  ⟨fun _ => rfl, fun h0 => absurd h0 hr, fun _ _ => rfl⟩

theorem Adds.makes (ha : Adds bs disk dir n name b disk') (ht : Tree bs disk)
    (hp : Reachable bs disk dir) : Makes bs disk disk' (directoryMap bs disk dir)
      (directoryMap bs disk' dir) name b 0 := by
  have hmap := ha.map ht hp (ha.reachable ht hp)
  refine ⟨fun hb => ?_, fun h0 => absurd rfl h0, fun _ => ⟨n, ha.fresh, hmap⟩, fun other hne => ?_⟩
  · exact absurd (directoryMap_ne_none.mp hb) ha.unbound
  · rw [hmap, Function.update_of_ne hne]

theorem Drops.unmakes (hd : Drops bs disk dir n name b disk') (hh : Hierarchy bs disk)
    (hp : Reachable bs disk dir) : Unmakes disk disk' (directoryMap bs disk dir)
      (directoryMap bs disk' dir) name b 0 := by
  obtain ⟨hold, hmap⟩ := hd.map hh.toTree hp (hd.reachable hh hp hp hd.notParent)
  refine ⟨fun h0 => absurd rfl h0, fun _ => ⟨n, hold, hmap⟩, fun other hne => ?_⟩
  rw [hmap, Function.update_of_ne hne]

/-- The directory stays one of a hierarchy, and its map follows the call. -/
def Follows (dev : Mount) (fs : Fs) (dir : Word) (c : NameCall) (r : ℕ) (m : Machine) : Prop :=
  Hierarchy dev.bs m.fs.disk ∧ Reachable dev.bs m.fs.disk dir ∧
    c.Acts dev.bs fs.disk m.fs.disk (directoryMap dev.bs fs.disk dir)
      (directoryMap dev.bs m.fs.disk dir) r

theorem mkdir_meets_adds (hh : Hierarchy dev.bs fs.disk) (hp : Reachable dev.bs fs.disk dir)
    (hfits : name.chars.length < MX3_NAME_LEN) (hmeets : (NameCall.mkdir name).Meets dev dir fs) :
    Ensures ∅ (At fs) (mkdir dev dir name) fun r m =>
      (r = 4 ∧ Bound dev.bs fs.disk dir name ∧ At fs m) ∨
      (r = 0 ∧ ∃ n, Adds dev.bs fs.disk dir n name true m.fs.disk) := by
  by_cases hb : Bound dev.bs fs.disk dir name
  · exact (mkdir_bound hh.toTree hp hb).weaken fun _ _ hr => Or.inl ⟨hr.1, hb, hr.2⟩
  · obtain ⟨hcan, hbs⟩ := hmeets.resolve_left hb
    exact mkdir_adds hh hp hbs hfits (Or.inr hcan)

theorem NameCall.follows (hh : Hierarchy dev.bs fs.disk) (hp : Reachable dev.bs fs.disk dir)
    (c : NameCall) (hfits : c.Fits) (hmeets : c.Meets dev dir fs) :
    Ensures ∅ (At fs) (c.run dev dir) (Follows dev fs dir c) := by
  have ht := hh.toTree
  cases c with
  | touch name =>
    apply (touchReg_adds hh hp hfits.1 hmeets).weaken
    rintro r m (⟨rfl, -, rfl⟩ | ⟨rfl, n, ha⟩)
    · exact ⟨hh, hp, makes_refused (by decide)⟩
    · exact ⟨ha.hierarchy, ha.reachable ht hp, ha.makes ht hp⟩
  | mkdir name =>
    apply (mkdir_meets_adds hh hp hfits.1 hmeets).weaken
    rintro r m (⟨rfl, -, rfl⟩ | ⟨rfl, n, ha⟩)
    · exact ⟨hh, hp, makes_refused (by decide)⟩
    · exact ⟨ha.hierarchy, ha.reachable ht hp, ha.makes ht hp⟩
  | rm name =>
    apply (rm_drops hh hp hmeets).weaken
    rintro r m (⟨rfl, -, rfl⟩ | ⟨rfl, n, hd⟩)
    · exact ⟨hh, hp, unmakes_refused (by decide)⟩
    · exact ⟨hd.hierarchy, hd.reachable hh hp hp hd.notParent, hd.unmakes hh hp⟩
  | rmdir name =>
    apply (rmdir_drops hh hp (Or.inl hfits.2.1)).weaken
    rintro r m (⟨hr, rfl⟩ | ⟨rfl, n, hd⟩)
    · exact ⟨hh, hp, unmakes_refused hr⟩
    · exact ⟨hd.hierarchy, hd.reachable hh hp hp hd.notParent, hd.unmakes hh hp⟩

/-! ## Every run -/

/-- What every call keeps. -/
def InHierarchy (dev : Mount) (dir : Word) (h : Heap ℕ Machine) : Prop :=
  Hierarchy dev.bs h.data.fs.disk ∧ Reachable dev.bs h.data.fs.disk dir

theorem NameStep.inHierarchy {h' : Heap ℕ Machine} {c : NameCall} (hin : InHierarchy dev dir h)
    (hstep : NameStep dev dir h c h') : InHierarchy dev dir h' := by
  obtain ⟨hfits, hmeets, r, hrun⟩ := hstep
  have hfollows := (c.follows hin.1 hin.2 hfits hmeets).returned (Finset.empty_subset _) rfl hrun
  exact ⟨hfollows.1, hfollows.2.1⟩

theorem InHierarchy.maps (hin : InHierarchy dev dir h) (c : NameCall) (hfits : c.Fits)
    (hmeets : c.Meets dev dir h.data.fs) : c.Maps dev dir h := by
  obtain ⟨hh, hp⟩ := hin
  obtain ⟨r, h', hrun, -, hh', hp', hacts⟩ :=
    c.follows hh hp hfits hmeets h (Finset.empty_subset _) rfl
  exact ⟨r, h', _, _, hrun, directoryMap_represents hh.toTree hp,
    directoryMap_represents hh'.toTree hp', hacts⟩

end Directory

/-- In a directory of a hierarchy, after any run of calls, every call that finds room or removes
what can be freed does to the map of the look-ups what it is to do. -/
theorem directory_is_map (dev : Mount) (dir : Word) (h₀ h : Heap ℕ Machine)
    (hh : Hierarchy dev.bs h₀.data.fs.disk) (hp : Reachable dev.bs h₀.data.fs.disk dir)
    (hrun : Execution (NameStep dev dir) h₀ h) (c : NameCall) (hfits : c.Fits)
    (hmeets : c.Meets dev dir h.data.fs) : c.Maps dev dir h := by
  have hin : InHierarchy dev dir h :=
    hrun.invariant (I := InHierarchy dev dir) (fun _ _ _ hin hstep => hstep.inHierarchy hin) ⟨hh, hp⟩
  exact hin.maps c hfits hmeets

/-- `touch` and then `rmdir` of the same name. -/
theorem directory_is_map_root :
    (NameCall.rmdir fileName).Maps smallMount 1
      (after (touchReg smallMount 1 fileName) (rootHeap false)) := by
  have hfits : (NameCall.touch fileName).Fits := ⟨by decide, by decide, by decide⟩
  have hcan : CanTouch 1024 (rootHeap false).data.fs 1 0 := root_canTouch.mono (Nat.zero_le 7)
  have hstep : NameStep smallMount 1 (rootHeap false) (.touch fileName)
      (after (touchReg smallMount 1 fileName) (rootHeap false)) :=
    ⟨hfits, Or.inr hcan, 0, outcome_some root_touch⟩
  exact directory_is_map smallMount 1 (rootHeap false) _ root_hierarchy .root (.single hstep)
    (.rmdir fileName) hfits trivial

/-- With the cursor of the search behind the free inode, the call takes the number behind the table;
its record is written to the root directory, and `.` is lost. -/
theorem touch_unmaps_names : Hierarchy 1024 lateHeap.data.fs.disk ∧
    Reachable 1024 lateHeap.data.fs.disk 1 ∧ FreeInode 1024 lateHeap.data.fs.disk 2 ∧
    FreeAhead 1024 lateHeap.data.fs 7 ∧
    fileSize 1024 lateHeap.data.fs.disk 1 + dirEntrySize ≤ blockStart 1024 (1 + ppz 1024) * 1024 ∧
    (NameCall.touch fileName).Fits ∧ ¬ (NameCall.touch fileName).Maps smallMount 1 lateHeap := by
  refine ⟨late_hierarchy, .root, ⟨by decide, by decide⟩, late_free, by decide,
    ⟨by decide, by decide, by decide⟩, ?_⟩
  rintro ⟨r, h', f, f', hrun, hf, hf', hacts⟩
  have hlost : outcome (lookUp smallMount 1 dot) (after (touchReg smallMount 1 fileName) lateHeap) ≠
      outcome (lookUp smallMount 1 dot) lateHeap := by decide +kernel
  have hafter : after (touchReg smallMount 1 fileName) lateHeap = h' := after_ok hrun
  apply hlost
  rw [hafter, hf.answers, hf'.answers, NameMap.answer, NameMap.answer, hacts.others dot (by decide)]

end Minix3.FileOps
