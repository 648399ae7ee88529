import DucreuOS.FilesKept
import DucreuOS.Library.FileMap

/-! # The file system

The directories and files of an image as a map from paths to bytes. Every run of
`minix3_touch_reg`, `minix3_mkdir`, `minix3_rm`, `minix3_rmdir` and `minix3_append_to_file` refines
the runs of the map, and the map is what look-ups and reads show. -/
namespace Minix3.FileOps

open ByteMemory LiveBlocks Transition FileMap

/-! ## What is seen of the map -/

/-- Look-ups from the root come to the inode by these names; `b` says whether it is a directory. -/
inductive Leads (dev : Mount) (h : Heap ℕ Machine) : List CString → Word → Bool → Prop
  | root : Leads dev h [] 1 true
  | step {p : List CString} {x : CString} {d n : Word} {code : ℕ} : Leads dev h p d true → Plain x →
    outcome (lookUp dev d x) h = some (code, some n) →
    Leads dev h (p ++ [x]) n (decide (code = 0))

/-- What a look-up returns for this node. -/
def Answered : Option (FileMap.Node Byte) → ℕ × Option Word → Prop
  | none, a => a = (MX3_RETURN_CODE_NOT_FOUND, none)
  | some .directory, a => ∃ n, a = (0, some n)
  | some (.file _), a => ∃ n, a = (MX3_RETURN_CODE_NOT_DIRECTORY, some n)

/-- Look-ups and reads show this map, and everything in it. -/
structure Shows (dev : Mount) (h : Heap ℕ Machine) (s : Files CString Byte) : Prop where
  root : s [] = some .directory
  found (p : List CString) (node : FileMap.Node Byte) : s p = some node → ∃ n b, Leads dev h p n b
  lookups {p : List CString} {d : Word} (x : CString) : Leads dev h p d true → Plain x →
    ∃ a, outcome (lookUp dev d x) h = some a ∧ Answered (s (p ++ [x])) a
  reads {p : List CString} {n : Word} : Leads dev h p n false →
    ∃ bytes, s p = some (.file bytes) ∧ Reads dev h n bytes

/-- The call in the directory at this path. -/
def NameCall.within (p : List CString) : NameCall → FileMap.Call CString Byte
  | touch x => .touch p x
  | mkdir x => .mkdir p x
  | rm x => .rm p x
  | rmdir x => .rmdir p x

/-- The call of the code for a call of the map, at a path that look-ups find. -/
inductive Addresses (dev : Mount) (h : Heap ℕ Machine) :
    FileMap.Call CString Byte → ImageCall → Prop
  | name {p : List CString} {d : Word} (c : NameCall) (hp : Leads dev h p d true) :
    Addresses dev h (c.within p) (.name d c)
  | append {p : List CString} {n : Word} (buffer : Mem) (size : Word) (hp : Leads dev h p n false) :
    Addresses dev h (.append p (listed buffer size.toNat)) (.append n buffer size)

/-- Names have at most 59 bytes, and they are neither `.` nor `..`. -/
def ImageCall.Fits : ImageCall → Prop
  | name _ call => call.Fits
  | append _ _ _ => True

/-- A call that returns, with whether its code is 0. -/
def FileStep (dev : Mount) (h : Heap ℕ Machine) (e : FileMap.Call CString Byte × Bool) (h' : Heap ℕ Machine) :
    Prop :=
  ∃ c r, Addresses dev h e.1 c ∧ c.Fits ∧ c.Meets dev h.data.fs ∧ c.run dev h = .ok (r, h') ∧
    e.2 = decide (r = 0)

/-! ## The map of an image -/

section Map

variable {bs : ℕ} {fs fs' : Fs} {disk disk' : Mem} {parent d n m : Word} {x : CString}
  {p q : List CString} {b : Bool}

/-- A plain name in a directory. -/
def Edge (bs : ℕ) (disk : Mem) (d : Word) (x : CString) (n : Word) : Prop :=
  Reachable bs disk d ∧ Plain x ∧ BoundTo bs disk d x n

def nodeOf (bs : ℕ) (disk : Mem) (n : Word) : FileMap.Node Byte :=
  if isDirectory bs disk n then .directory else .file (bytesOf bs disk n)

abbrev Leaf (bs : ℕ) (disk : Mem) (p : List CString) (n : Word) : Prop :=
  Path (Edge bs disk) 1 p n

noncomputable def files (bs : ℕ) (disk : Mem) : Files CString Byte :=
  filesOf (Edge bs disk) 1 (nodeOf bs disk)

theorem nodeOf_directory (h : isDirectory bs disk n = true) : nodeOf bs disk n = .directory :=
  if_pos h

theorem nodeOf_file (h : isDirectory bs disk n = false) :
    nodeOf bs disk n = .file (bytesOf bs disk n) := by
  rw [nodeOf, h]
  rfl

theorem leaf_reachable (hp : Leaf bs disk p n) (hdir : isDirectory bs disk n = true) :
    Reachable bs disk n := by
  cases hp with
  | root => exact .root
  | step _ hn => exact .step hn.1 hn.2.2 hdir

namespace Hierarchy

variable (h : Hierarchy bs disk)

include h

theorem fileTree : FileMap.Tree (Edge bs disk) 1 where
  functional hn hn' := (h.directory _ hn.1).binds_unique hn.2.2 hn'.2.2
  once hn hn' := h.once hn.1 hn'.1 hn.2.1 hn'.2.1 hn.2.2 hn'.2.2
  top d x hn := h.top d x hn.1 hn.2.1 hn.2.2

theorem files_some (hp : Leaf bs disk p n) : files bs disk p = some (nodeOf bs disk n) :=
  filesOf_some h.fileTree hp

theorem path_inUse (hp : Leaf bs disk p n) : InUse bs disk n := by
  cases hp with
  | root => exact h.root.1
  | step _ hn => exact h.entry _ _ _ hn.1 hn.2.2

/-- Every directory is at a path of plain names. -/
theorem path_of_reachable (hd : Reachable bs disk d) : ∃ p, Leaf bs disk p d := by
  induction hd with
  | root => exact ⟨[], .root⟩
  | @step parent child name hparent hname hdir ih =>
    obtain ⟨p, hp⟩ := ih
    by_cases hplain : Plain name
    · exact ⟨p ++ [name], .step hp ⟨hparent, hplain, hname⟩⟩
    rw [Plain, not_and_or, not_not, not_not] at hplain
    rcases hplain with rfl | rfl
    · obtain rfl := (h.directory parent hparent).binds_unique (h.own parent hparent) hname
      exact ⟨p, hp⟩
    · -- `..` leads to the directory in front of the last name
      obtain ⟨up, hup, -, habove⟩ := h.up parent hparent
      obtain rfl := (h.directory parent hparent).binds_unique hup hname
      rcases habove with ⟨rfl, -⟩ | ⟨c, hc, hcparent⟩
      · exact ⟨[], .root⟩
      have hchild : Reachable bs disk up := .step hparent hname hdir
      cases hp with
      | root => exact absurd hcparent (h.top up c hchild hc)
      | step hd' hedge =>
        obtain ⟨rfl, -⟩ := h.once hedge.1 hchild hedge.2.1 hc hedge.2.2 hcparent
        exact ⟨_, hd'⟩

end Hierarchy

/-! ## A name more -/

section Added

variable (h : Hierarchy bs disk) (hp : Reachable bs disk parent) (hx : Plain x)
  (ha : Adds bs disk parent n x b disk') (hk : KeepsFiles bs disk disk')

include h ha hk

/-- The new inode is the one directory more at most. -/
theorem Adds.reachable_old (hd : Reachable bs disk' d) : Reachable bs disk d ∨ d = n := by
  have hn : InUse bs disk' n := (ha.inUse n).mpr (Or.inl rfl)
  have hcase : Reachable bs disk d ∨ (d = n ∧ isDirectory bs disk' n = true) := by
    apply reachable_within (Or.inl .root) _ hd
    rintro d name k (hd | ⟨rfl, hdir⟩) hbound hkdir
    · rcases (ha.bound d hd name k).mp hbound with hold | ⟨-, -, rfl⟩
      · exact Or.inl (.step hd hold ((ha.mode k (h.entry d k name hd hold)).symm.trans hkdir))
      · exact Or.inr ⟨rfl, hkdir⟩
    · rcases (hk.bare d ha.fresh hn hdir name k hbound).2 with rfl | hold
      · exact Or.inr ⟨rfl, hkdir⟩
      · exact Or.inl hold
  exact hcase.imp id And.left

include hp hx

theorem Adds.edge {y : CString} :
    Edge bs disk' d y m ↔ Edge bs disk d y m ∨ (d = parent ∧ y = x ∧ m = n) := by
  constructor
  · rintro ⟨hd, hy, hm⟩
    rcases ha.reachable_old h hk hd with hold | rfl
    · refine ((ha.bound d hold y m).mp hm).imp (fun hm => ⟨hold, hy, hm⟩) id
    · have hn : InUse bs disk' d := (ha.inUse d).mpr (Or.inl rfl)
      have hdir := (ha.hierarchy.reachable hd).2
      exact absurd hy (hk.bare d ha.fresh hn hdir y m hm).1
  · rintro (⟨hd, hy, hm⟩ | ⟨rfl, rfl, rfl⟩)
    · exact ⟨ha.reachable h.toTree hd, hy, (ha.bound d hd y m).mpr (Or.inl hm)⟩
    · exact ⟨ha.reachable h.toTree hp, hx, (ha.bound d hp y m).mpr (Or.inr ⟨rfl, rfl, rfl⟩)⟩

theorem Adds.files (hpath : Leaf bs disk p parent) :
    files bs disk (p ++ [x]) = none ∧ files bs disk' =
      Function.update (files bs disk) (p ++ [x]) (some (if b then .directory else .file [])) := by
  have hfresh {q : List CString} : ¬ Leaf bs disk q n := fun hq => ha.fresh (h.path_inUse hq)
  have hleaf (y : CString) (m : Word) : ¬ Edge bs disk n y m := fun hedge =>
    ha.fresh (h.reachable hedge.1).1
  have hne : n ≠ parent := fun heq => ha.fresh (heq ▸ (h.reachable hp).1)
  have hpaths {q : List CString} {m : Word} : Leaf bs disk' q m ↔
      Leaf bs disk q m ∨ ∃ p, Leaf bs disk p parent ∧ q = p ++ [x] ∧ m = n :=
    path_add_leaf (fun _ _ _ => ha.edge h hp hx hk) hleaf hne
  have hnew : Leaf bs disk' (p ++ [x]) n := hpaths.mpr (Or.inr ⟨p, hpath, rfl, rfl⟩)
  have hnone : FileOps.files bs disk (p ++ [x]) = none := by
    apply filesOf_none
    intro m hm
    obtain ⟨d, hd, hedge⟩ := path_snoc.mp hm
    obtain rfl := hd.functional h.fileTree hpath
    exact ha.unbound ⟨m, hedge.2.2⟩
  refine ⟨hnone, ?_⟩
  have hnode : FileOps.files bs disk' (p ++ [x]) = some (if b then .directory else .file []) := by
    have huse : InUse bs disk' n := (ha.inUse n).mpr (Or.inl rfl)
    rw [ha.hierarchy.files_some hnew]
    cases b with
    | true => rw [nodeOf_directory ha.kind, if_pos rfl]
    | false => rw [nodeOf_file ha.kind, hk.empty n ha.fresh huse ha.kind, if_neg Bool.false_ne_true]
  rw [← hnode]
  refine filesOf_update h.fileTree ha.hierarchy.fileTree (fun q m hq => ?_) fun q m _ hm => ?_
  · apply hpaths.trans (or_iff_left ?_)
    rintro ⟨p', hp', rfl, -⟩
    exact hq (by rw [hp'.unique h.fileTree hpath])
  · have huse := h.path_inUse hm
    have hmode := ha.mode m huse
    cases hdir : isDirectory bs disk m with
    | true => rw [nodeOf_directory hdir, nodeOf_directory (hmode.trans hdir)]
    | false =>
      rw [nodeOf_file hdir, nodeOf_file (hmode.trans hdir),
        hk.kept m huse ((ha.inUse m).mpr (Or.inr huse)) hdir]

end Added

/-! ## A name less -/

section Dropped

variable (h : Hierarchy bs disk) (hp : Reachable bs disk parent)
  (hd : Drops bs disk parent n x b disk')

include h hp hd

/-- Nothing plain is left in what is removed. -/
theorem Drops.leaf {y : CString} : ¬ Edge bs disk n y m := by
  rintro ⟨hn, hy, hm⟩
  have hdir : b = true := hd.kind.symm.trans (h.reachable hn).2
  rcases hd.leads y m hdir hm with rfl | rfl
  · exact hd.notParent (h.once hn hp hy hd.plain hm hd.bound).1.symm
  · -- the parent directory would be at two paths
    obtain ⟨p, hpath⟩ := h.path_of_reachable hp
    have hback : Leaf bs disk (p ++ [x] ++ [y]) m :=
      .step (.step hpath ⟨hp, hd.plain, hd.bound⟩) ⟨hn, hy, hm⟩
    have hlen := congrArg List.length (hpath.unique h.fileTree hback)
    simp at hlen

theorem Drops.edge {y : CString} : Edge bs disk' d y m ↔ Edge bs disk d y m ∧ m ≠ n := by
  have hold (hreach : Reachable bs disk' d) : Reachable bs disk d ∧ d ≠ n := by
    have hn : ¬ InUse bs disk' n := fun huse => ((hd.inUse n).mp huse).2 rfl
    apply reachable_within (R := fun d => Reachable bs disk d ∧ d ≠ n) _ _ hreach
    · refine ⟨.root, ?_⟩
      rintro rfl
      exact hn hd.hierarchy.root.1
    · rintro d name k ⟨hd₀, hdn⟩ hk hkdir
      obtain ⟨hk, hkn⟩ := (hd.left d hd₀ hdn name k).mp hk
      exact ⟨.step hd₀ hk ((hd.mode k (h.entry d k name hd₀ hk) hkn).symm.trans hkdir), hkn⟩
  constructor
  · rintro ⟨hreach, hy, hm⟩
    obtain ⟨hd₀, hdn⟩ := hold hreach
    obtain ⟨hm, hmn⟩ := (hd.left d hd₀ hdn y m).mp hm
    exact ⟨⟨hd₀, hy, hm⟩, hmn⟩
  · rintro ⟨⟨hd₀, hy, hm⟩, hmn⟩
    have hdn : d ≠ n := by
      rintro rfl
      exact hd.leaf h hp ⟨hd₀, hy, hm⟩
    exact ⟨hd.reachable h hp hd₀ hdn, hy, (hd.left d hd₀ hdn y m).mpr ⟨hm, hmn⟩⟩

theorem Drops.files (hk : KeepsFiles bs disk disk') (hpath : Leaf bs disk p parent) :
    files bs disk (p ++ [x]) = some (nodeOf bs disk n) ∧
    (∀ y, files bs disk (p ++ [x] ++ [y]) = none) ∧
    files bs disk' = Function.update (files bs disk) (p ++ [x]) none := by
  have hn : Leaf bs disk (p ++ [x]) n := .step hpath ⟨hp, hd.plain, hd.bound⟩
  have hroot : n ≠ 1 := fun heq => h.top parent x hp hd.plain (heq ▸ hd.bound)
  have hpaths {q : List CString} {m : Word} : Leaf bs disk' q m ↔ Leaf bs disk q m ∧ m ≠ n :=
    path_remove_leaf (fun _ _ _ => hd.edge h hp) (fun _ _ => hd.leaf h hp) hroot
  have hnone : FileOps.files bs disk' (p ++ [x]) = none := by
    apply filesOf_none
    intro m hm
    obtain ⟨hm, hmn⟩ := hpaths.mp hm
    exact hmn (hm.functional h.fileTree hn)
  refine ⟨h.files_some hn, fun y => ?_, ?_⟩
  · apply filesOf_none
    intro m hm
    obtain ⟨d, hd', hedge⟩ := path_snoc.mp hm
    obtain rfl := hd'.functional h.fileTree hn
    exact hd.leaf h hp hedge
  rw [← hnone]
  refine filesOf_update h.fileTree hd.hierarchy.fileTree (fun q m hq => ?_) fun q m hq hm => ?_
  · apply hpaths.trans (and_iff_left_of_imp fun hm heq => ?_)
    subst heq
    exact hq (hm.unique h.fileTree hn)
  · have hmn : m ≠ n := by
      rintro rfl
      exact hq (hm.unique h.fileTree hn)
    have huse := h.path_inUse hm
    have hmode := hd.mode m huse hmn
    cases hdir : isDirectory bs disk m with
    | true => rw [nodeOf_directory hdir, nodeOf_directory (hmode.trans hdir)]
    | false =>
      rw [nodeOf_file hdir, nodeOf_file (hmode.trans hdir),
        hk.kept m huse ((hd.inUse m).mpr ⟨huse, hmn⟩) hdir]

end Dropped

/-! ## A longer file -/

section Appended

variable {bytes : List Byte} (h : Hierarchy bs fs.disk) (ha : AppendedTo bs fs n bytes fs')
  (hfile : isDirectory bs fs.disk n = false)

include h ha hfile

theorem files_appended (hpath : Leaf bs fs.disk p n) :
    files bs fs'.disk = Function.update (files bs fs.disk) p
      (some (.file (bytesOf bs fs.disk n ++ bytes))) := by
  have hn := h.path_inUse hpath
  have h' := hierarchy_appended h ha hn hfile
  have hmode {m : Word} (hm : InUse bs fs.disk m) :
      isDirectory bs fs'.disk m = isDirectory bs fs.disk m := by
    by_cases hmn : m = n
    · rw [hmn, isDirectory, ha.rest]
      rfl
    · exact (Linked.of_same (ha.grew.other m hm hmn)).isDirectory
  have hlinked {d : Word} (hd : Reachable bs fs.disk d) : Linked bs fs.disk fs'.disk d 0 := by
    apply Linked.of_same (ha.grew.other d (h.reachable hd).1 ?_)
    rintro rfl
    rw [isDirectory, (h.reachable hd).2] at hfile
    cases hfile
  have hbound {d : Word} (hd : Reachable bs fs.disk d) (y : CString) (m : Word) :
      BoundTo bs fs'.disk d y m ↔ BoundTo bs fs.disk d y m :=
    (hlinked hd).boundTo_iff (h.directory d hd)
  have hreach {d : Word} : Reachable bs fs'.disk d ↔ Reachable bs fs.disk d := by
    constructor
    · intro hd
      apply reachable_within (R := Reachable bs fs.disk) .root _ hd
      intro d y k hd hk hkdir
      have hk := (hbound hd y k).mp hk
      exact .step hd hk ((hmode (h.entry d k y hd hk)).symm.trans hkdir)
    · exact h.toTree.reachable_mono (fun m hm => hmode hm) fun d hd y k hk => (hbound hd y k).mpr hk
  have hedge : Edge bs fs'.disk = Edge bs fs.disk := by
    funext d y m
    rw [Edge, Edge, hreach]
    exact propext (and_congr_right fun hd => and_congr_right fun _ => hbound hd y m)
  have hnode : FileOps.files bs fs'.disk p = some (.file (bytesOf bs fs.disk n ++ bytes)) := by
    have hpath' : Leaf bs fs'.disk p n := by rwa [Leaf, hedge]
    rw [h'.files_some hpath', nodeOf_file ((hmode hn).trans hfile), bytesOf, ha.contents]
  rw [← hnode]
  refine filesOf_update h.fileTree h'.fileTree (fun q m _ => by rw [hedge]) fun q m hq hm => ?_
  have hmn : m ≠ n := by
    rintro rfl
    exact hq (hm.unique h.fileTree hpath)
  have huse := h.path_inUse hm
  have hbytes := (ha.file h.toConsistent huse (h.whole m huse)).2
  rw [if_neg (Ne.symm hmn), List.append_nil] at hbytes
  rw [nodeOf, nodeOf, hmode huse, bytesOf, bytesOf, hbytes]

end Appended

end Map

/-! ## What the calls show -/

section Shown

variable {dev : Mount} {h h' : Heap ℕ Machine} {p : List CString} {d n : Word} {x : CString} {b : Bool}

theorem Hierarchy.lookUp_answers (hh : Hierarchy dev.bs h.data.fs.disk)
    (hd : Reachable dev.bs h.data.fs.disk d) (x : CString) :
    ∃ a, outcome (lookUp dev d x) h = some a ∧ Answers dev.bs h.data.fs.disk d x a := by
  have hsound : Ensures ∅ (At h.data.fs) (lookUp dev d x) fun p m =>
      Answers dev.bs h.data.fs.disk d x p ∧ At h.data.fs m :=
    lookUp_sound (hh.directory d hd) (hh.reachable hd).2
  obtain ⟨a, hout, -, hanswers, -⟩ := outcome_of hsound
  exact ⟨a, hout, hanswers⟩

theorem Leads.leaf (hh : Hierarchy dev.bs h.data.fs.disk) (hl : Leads dev h p n b) :
    Leaf dev.bs h.data.fs.disk p n ∧ isDirectory dev.bs h.data.fs.disk n = b := by
  induction hl with
  | root => exact ⟨.root, hh.root.2⟩
  | @step p x d n code _ hx hout ih =>
    have hd := leaf_reachable ih.1 ih.2
    obtain ⟨a, hout', hanswers⟩ := hh.lookUp_answers hd x
    rw [hout, Option.some.injEq] at hout'
    subst hout'
    rcases hanswers with ⟨-, hnone⟩ | ⟨k, hk, hsome⟩
    · cases hnone
    · obtain ⟨rfl, rfl⟩ : code = _ ∧ n = k := by simpa using hsome
      refine ⟨.step ih.1 ⟨hd, hx, hk⟩, ?_⟩
      cases isDirectory dev.bs h.data.fs.disk n <;> rfl

section Calls

variable {fs : Fs} (hh : Hierarchy dev.bs fs.disk) (hp : Leaf dev.bs fs.disk p d)

/-- What one call does to the map. -/
def Refines (dev : Mount) (fs : Fs) (call : FileMap.Call CString Byte) (r : ℕ) (m : Machine) :
    Prop :=
  Hierarchy dev.bs m.fs.disk ∧
    FileMap.Step (files dev.bs fs.disk) (call, decide (r = 0)) (files dev.bs m.fs.disk)

include hh

theorem refines_refused {call : FileMap.Call CString Byte} {r : ℕ} {m : Machine} (hr : r ≠ 0)
    (hm : At fs m) (hno : call.Refusable (files dev.bs fs.disk)) : Refines dev fs call r m := by
  obtain rfl : m.fs = fs := hm
  refine ⟨hh, ?_⟩
  rw [decide_eq_false hr]
  exact ⟨hno, rfl⟩

include hp

theorem files_of_bound (hd : Reachable dev.bs fs.disk d) (hx : Plain x)
    (hb : Bound dev.bs fs.disk d x) : files dev.bs fs.disk (p ++ [x]) ≠ none := by
  obtain ⟨n, hn⟩ := hb
  rw [hh.files_some (.step hp ⟨hd, hx, hn⟩)]
  exact Option.some_ne_none _

variable (hdir : isDirectory dev.bs fs.disk d = true)

include hdir

theorem files_parent : files dev.bs fs.disk p = some .directory :=
  (hh.files_some hp).trans (congrArg some (nodeOf_directory hdir))

theorem NameCall.refines (c : NameCall) (hfits : c.Fits) (hmeets : c.Meets dev d fs) :
    Ensures ∅ (At fs) (c.run dev d) (Refines dev fs (c.within p)) := by
  have hd := leaf_reachable hp hdir
  have hkeeps := c.keepsFiles hh hd hfits hmeets
  cases c with
  | touch x =>
    apply ((touchReg_adds hh hd hfits.1 hmeets).and hkeeps).weaken
    rintro r m ⟨⟨rfl, hb, hm⟩ | ⟨rfl, n, ha⟩, hk⟩
    · refine refines_refused hh (by decide) hm fun hallowed => ?_
      exact files_of_bound hh hp hd hfits.2 hb hallowed.2
    · obtain ⟨hnone, hfiles⟩ := ha.files hh hd hfits.2 hk hp
      exact ⟨ha.hierarchy, ⟨files_parent hh hp hdir, hnone⟩, hfiles⟩
  | mkdir x =>
    apply ((mkdir_meets_adds hh hd hfits.1 hmeets).and hkeeps).weaken
    rintro r m ⟨⟨rfl, hb, hm⟩ | ⟨rfl, n, ha⟩, hk⟩
    · refine refines_refused hh (by decide) hm fun hallowed => ?_
      exact files_of_bound hh hp hd hfits.2 hb hallowed.2
    · obtain ⟨hnone, hfiles⟩ := ha.files hh hd hfits.2 hk hp
      exact ⟨ha.hierarchy, ⟨files_parent hh hp hdir, hnone⟩, hfiles⟩
  | rm x =>
    apply ((rm_drops hh hd hmeets).and hkeeps).weaken
    rintro r m ⟨⟨rfl, hno, hm⟩ | ⟨rfl, n, hdrops⟩, hk⟩
    · refine refines_refused hh (by decide) hm ?_
      rintro ⟨bytes, hfile⟩
      obtain ⟨n, hn, hnode⟩ := (filesOf_iff hh.fileTree).mp hfile
      obtain ⟨d', hd', hedge⟩ := path_snoc.mp hn
      obtain rfl := hd'.functional hh.fileTree hp
      refine hno ⟨n, hedge.2.2, ?_⟩
      by_contra hndir
      rw [Bool.not_eq_false] at hndir
      rw [nodeOf_directory hndir] at hnode
      cases hnode
    · obtain ⟨hnode, -, hfiles⟩ := hdrops.files hh hd hk hp
      rw [nodeOf_file hdrops.kind] at hnode
      exact ⟨hdrops.hierarchy, ⟨_, hnode⟩, hfiles⟩
  | rmdir x =>
    apply ((rmdir_drops hh hd (Or.inl hfits.2.1)).and hkeeps).weaken
    rintro r m ⟨⟨hr, hm⟩ | ⟨rfl, n, hdrops⟩, hk⟩
    · exact refines_refused hh hr hm trivial
    · obtain ⟨hnode, hchildren, hfiles⟩ := hdrops.files hh hd hk hp
      rw [nodeOf_directory hdrops.kind] at hnode
      exact ⟨hdrops.hierarchy, ⟨hnode, hchildren⟩, hfiles⟩

end Calls

theorem append_refines {fs : Fs} {buffer : Mem} {size : Word} (hh : Hierarchy dev.bs fs.disk)
    (hp : Leaf dev.bs fs.disk p n) (hmeets : (ImageCall.append n buffer size).Meets dev fs) :
    Ensures ∅ (At fs) (appendToFile dev n buffer size)
      (Refines dev fs (.append p (listed buffer size.toNat))) := by
  obtain ⟨hfile, hroom, hfree⟩ := hmeets
  have hn := hh.path_inUse hp
  have hold : files dev.bs fs.disk p = some (.file (bytesOf dev.bs fs.disk n)) :=
    (hh.files_some hp).trans (congrArg some (nodeOf_file hfile))
  rw [← Nat.zero_add (growCost _ _ _)] at hfree
  apply (appendToFile_sound hh.toConsistent hn (hh.whole n hn) hroom hfree).weaken
  rintro r m ⟨rfl, ha, -⟩
  refine ⟨hierarchy_appended hh ha hn hfile, ⟨_, hold⟩, ?_⟩
  rw [files_appended hh ha hfile hp]
  simp only [FileMap.Call.path, FileMap.Call.result, hold]

/-- A call at a path of the map returns, and does to the map what it is to do. -/
theorem Addresses.refines {call : FileMap.Call CString Byte} {c : ImageCall}
    (hh : Hierarchy dev.bs h.data.fs.disk) (ha : Addresses dev h call c) (hfits : c.Fits)
    (hmeets : c.Meets dev h.data.fs) :
    Ensures ∅ (At h.data.fs) (c.run dev) (Refines dev h.data.fs call) := by
  cases ha with
  | @name p d c hl =>
    obtain ⟨hp, hdir⟩ := hl.leaf hh
    have hnamed : c.Meets dev d h.data.fs := by
      cases c with
      | rmdir x => trivial
      | touch x | mkdir x | rm x => exact hmeets
    exact c.refines hh hp hdir hfits hnamed
  | append buffer size hl => exact append_refines hh (hl.leaf hh).1 hmeets

theorem FileStep.refines {e : FileMap.Call CString Byte × Bool} (hh : Hierarchy dev.bs h.data.fs.disk)
    (hstep : FileStep dev h e h') : Hierarchy dev.bs h'.data.fs.disk ∧
      FileMap.Step (files dev.bs h.data.fs.disk) e (files dev.bs h'.data.fs.disk) := by
  obtain ⟨call, ok⟩ := e
  obtain ⟨c, r, ha, hfits, hmeets, hrun, rfl⟩ := hstep
  exact (ha.refines hh hfits hmeets).returned (Finset.empty_subset _) rfl hrun

end Shown

end Minix3.FileOps
