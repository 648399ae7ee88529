import DucreuOS.RemoveDirectory

/-! # A directory that is made and removed

`minix3_mkdir` and then `minix3_rmdir` for the same name: what the calls together have changed. -/
namespace Minix3.FileOps

open ByteMemory LiveBlocks

/-! ## Look-ups -/

section Answers

variable {dev : Mount} {fs fs' : Fs} {h h' : Heap ℕ Machine} {bs : ℕ} {disk disk' : Mem} {d : Word}
  {name : CString}

/-- A look-up of a name in directory `d`: the code, and the inode number. -/
def lookUp (dev : Mount) (d : Word) (name : CString) : Op (ℕ × Option Word) := do
  let (_, dir) ← getInode dev d
  let lookup ← getInodeFromName dev dir name
  pure (lookup.retval, lookup.found.map Prod.fst)

/-- What the look-up returns. -/
def Answers (bs : ℕ) (disk : Mem) (d : Word) (name : CString) (p : ℕ × Option Word) : Prop :=
  (¬ Bound bs disk d name ∧ p = (MX3_RETURN_CODE_NOT_FOUND, none)) ∨
  ∃ k, BoundTo bs disk d name k ∧
    p = (if isDirectory bs disk k then 0 else MX3_RETURN_CODE_NOT_DIRECTORY, some k)

theorem lookUp_sound (hd : Directory dev.bs fs.disk (Minix3.getInode dev.bs fs.disk d))
    (hdir : isDirectory dev.bs fs.disk d = true) :
    Ensures ∅ (At fs) (lookUp dev d name) fun p m =>
      Answers dev.bs fs.disk d name p ∧ At fs m := by
  apply (getInode_ensures d).step
  apply (getInodeFromName_sound hd hdir name).bind
  intro lookup
  apply Ensures.given
  intro hfinds
  apply ensures_pure
  intro m hm
  refine ⟨?_, hm⟩
  cases hfinds.classified with
  | notFound hno => exact Or.inl ⟨hno, rfl⟩
  | @file k hk hfile =>
    rw [← Bool.not_eq_true] at hfile
    exact Or.inr ⟨k, hk, by rw [if_neg hfile]; rfl⟩
  | @directory k hk hkdir => exact Or.inr ⟨k, hk, by rw [if_pos hkdir]; rfl⟩

/-- The same names are bound, to inodes of the same kind. -/
theorem Answers.same {p p' : ℕ × Option Word} (ha : Answers bs disk d name p)
    (ha' : Answers bs disk' d name p') (hd : Directory bs disk (Minix3.getInode bs disk d))
    (hbound : ∀ k, BoundTo bs disk' d name k ↔ BoundTo bs disk d name k)
    (hmode : ∀ k, BoundTo bs disk d name k → isDirectory bs disk' k = isDirectory bs disk k) :
    p' = p := by
  rcases ha with ⟨hno, rfl⟩ | ⟨k, hk, rfl⟩ <;> rcases ha' with ⟨hno', rfl⟩ | ⟨k', hk', rfl⟩
  · rfl
  · exact absurd ⟨k', (hbound k').mp hk'⟩ hno
  · exact absurd ⟨k, (hbound k).mpr hk⟩ hno'
  · obtain rfl : k' = k := hd.binds_unique ((hbound k').mp hk') hk
    rw [hmode k' hk]

/-- A program that returns has an outcome. -/
theorem outcome_of {α : Type} {op : Op α} {Q : α → Machine → Prop} (ho : Ensures ∅ (At h.data.fs) op Q) :
    ∃ a, outcome op h = some a ∧ ∃ m, Q a m := by
  obtain ⟨a, h', hrun, -, hQ⟩ := ho h (Finset.empty_subset _) rfl
  refine ⟨a, ?_, h'.data, hQ⟩
  rw [outcome, hrun]
  rfl

theorem after_ok {α : Type} {op : Op α} {a : α} (hop : op h = .ok (a, h')) : after op h = h' := by
  rw [after, hop]
  rfl

end Answers

/-! ## Both calls -/

section Both

variable {dev : Mount} {h h₁ h₂ : Heap ℕ Machine} {fs fs₁ : Fs} {disk₂ : Mem} {bs : ℕ}
  {parent n : Word} {name : CString}

section Undone

variable (ht : Tree bs fs.disk) (hp : Reachable bs fs.disk parent)
  (hm : Made bs fs parent n name fs₁) (hr : NodeRemoved bs fs₁.disk parent n {fileZone bs fs₁.disk (Minix3.getInode bs fs₁.disk n) 0}
    (-1) disk₂)

include hm hr

include ht

omit hr

include hp

theorem Made.not_parent : parent ≠ n := fun heq =>
  hm.fresh.not_inUse (heq ▸ (ht.reachable hp).1)

theorem Made.onlyName : OnlyName bs fs₁.disk parent name n := by
  intro d hd hdn other hk
  have hold := hm.reachable_old ht hp hd hdn
  rcases (hm.bound d hold other n).mp hk with hbefore | ⟨hdp, hname, -⟩
  · exact absurd (ht.entry d n other hold hbefore) hm.fresh.not_inUse
  · exact ⟨hdp, hname⟩

omit hp

end Undone

end Both

theorem root_unbound {full : Bool} : ¬ Bound 1024 (rootDevice full) 1 fileName := by
  rintro ⟨n, j, hj, hnamed, -⟩
  have hj2 : j < 2 := hj.trans_eq root_entries
  have hchar := root_named hj2 hnamed (Nat.zero_le _)
  revert hchar
  clear hj hnamed
  revert full
  interval_cases j <;> decide

section Late

variable {bs : ℕ} {disk : Mem} {n : Word}

theorem setInodeUnoccupied_linked {m : Word} (ht : Tree bs disk) (hn : InUse bs disk n)
    (hm : InUse bs disk m) : Linked bs disk (Minix3.setInodeUnoccupied bs disk n) m 0 :=
  .of_same ⟨setInodeUnoccupied_getInode ht.layout hn hm.1,
    setInodeUnoccupied_kept ht.layout hn (ht.marked m hm)⟩

/-- An inode that no name is for is given back. -/
theorem Tree.drop_inode (ht : Tree bs disk) (hn : InUse bs disk n) (h1 : n ≠ 1)
    (hno : ∀ d name, Reachable bs disk d → ¬ BoundTo bs disk d name n) :
    Tree bs (Minix3.setInodeUnoccupied bs disk n) := by
  have huse (m : Word) := setInodeUnoccupied_inUse (m := m) ht.layout hn
  have hlinked (m : Word) (hm : InUse bs disk m) := setInodeUnoccupied_linked ht hn hm
  have hl' : ImageLayout bs (Minix3.setInodeUnoccupied bs disk n) :=
    ht.layout.congr (setInodeUnoccupied_map ht.layout hn).super
  apply ht.remove _ h1 huse
  · exact fun m hm _ => (hlinked m hm).isDirectory
  · exact fun d hd _ => (hlinked d (ht.reachable hd).1).directory hl'.toZoneLayout (ht.directory d hd)
  · intro d hd _ name k hk
    rw [(hlinked d (ht.reachable hd).1).boundTo_iff (ht.directory d hd)] at hk
    exact ⟨hk, fun heq => hno d name hd (heq ▸ hk)⟩
  · refine ht.of_nodes hl' (fun m hm => ((huse m).mp hm).1) (fun m hm p hpin => ?_) fun m hm => ?_
    · exact (hlinked m ((huse m).mp hm).1).node hpin
    · have hlink := hlinked m ((huse m).mp hm).1
      exact (hlink.kept.of_zones hlink.zones).marks

def lateHeap : Heap ℕ Machine :=
  ⟨∅, ⟨⟨Minix3.setInodeUnoccupied 1024 (rootDevice true) 2, 0, 3⟩, fun _ _ => 0⟩⟩

theorem late_used : InUse 1024 (rootDevice true) 2 := ⟨by decide, by decide⟩

theorem late_tree : Tree 1024 lateHeap.data.fs.disk := by
  refine root_tree.drop_inode late_used (by decide) fun d name hd => ?_
  obtain rfl := root_reachable hd
  rintro ⟨j, hj, -, heq⟩
  rw [root_inode (hj.trans_eq root_entries)] at heq
  exact absurd heq (by decide)

theorem late_free : FreeAhead 1024 lateHeap.data.fs 7 := by
  have hmap := setInodeUnoccupied_map (root_layout true) late_used
  exact (root_free true).congr hmap

end Late

end Minix3.FileOps
