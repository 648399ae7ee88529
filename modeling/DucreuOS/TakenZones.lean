import DucreuOS.FileAppending

/-! # The zones that an append takes

No zone is lost: what the bitmap marks after `minix3_append_to_file` and did not mark before is in
the tree of the file. -/
namespace Minix3

open ByteMemory PlacedTree

section Uses

variable {bs : ℕ} {disk₀ disk disk' : Mem} {inode inode' : Inode} {P : Set Word} {q : Node}
  {v z : Word}

/-- Zones that have been marked since `disk₀` are in the tree, or still to be put there. -/
def Uses (bs : ℕ) (disk₀ : Mem) (P : Set Word) (disk : Mem) (inode : Inode) : Prop :=
  ∀ z, Marked bs disk z → Marked bs disk₀ z ∨ z ∈ P ∨ z ∈ treeZones bs disk inode

theorem Uses.refl : Uses bs disk P disk inode := fun _ hz => Or.inl hz

theorem Uses.take (h : Uses bs disk₀ P disk inode) (hl : ZoneLayout bs disk)
    (hm : MarkedZones bs disk inode) (ht : Taken bs disk disk' z) :
    Uses bs disk₀ (insert z P) disk' inode := by
  intro y hy
  rcases (ht.marked_iff hl y).mp hy with rfl | hy
  · exact Or.inr (Or.inl (Set.mem_insert _ _))
  · rcases h y hy with hold | hp | ⟨n, hn, rfl⟩
    · exact Or.inl hold
    · exact Or.inr (Or.inl (Set.mem_insert_of_mem _ hp))
    · exact Or.inr (Or.inr ⟨n, hn, ht.nodeZone_eq hl hm n hn⟩)

/-- A place names a pending zone; what lay below it was there before. -/
theorem Uses.renew (h : Uses bs disk₀ (insert v P) disk inode)
    (hr : Renews bs disk inode disk' inode' q v) (hq : q.In bs)
    (hmarks : ∀ y, Marked bs disk' y → Marked bs disk y)
    (hbelow : ∀ n : Node, n.In bs → (fileShape bs).Under q n → nodeZone bs disk inode n ≠ 0 →
      Marked bs disk₀ (nodeZone bs disk inode n)) (hl : ZoneLayout bs disk) :
    Uses bs disk₀ P disk' inode' := by
  intro y hy
  rcases h y (hmarks y hy) with hold | hp | ⟨n, hn, rfl⟩
  · exact Or.inl hold
  · rcases hp with rfl | hp
    · exact Or.inr (Or.inr ⟨q, hq, hr.here⟩)
    · exact Or.inr (Or.inl hp)
  · by_cases hu : (fileShape bs).Under q n
    · exact Or.inl (hbelow n hn hu (hl.ne_zero (hmarks _ hy).1))
    · exact Or.inr (Or.inr ⟨n, hn, hr.elsewhere n hn hu⟩)

theorem Uses.same (h : Uses bs disk₀ P disk inode)
    (hmarks : ∀ y, Marked bs disk' y → Marked bs disk y)
    (hnodes : ∀ n : Node, n.In bs → nodeZone bs disk' inode' n = nodeZone bs disk inode n) :
    Uses bs disk₀ P disk' inode' := by
  intro y hy
  rcases h y (hmarks y hy) with hold | hp | ⟨n, hn, rfl⟩
  · exact Or.inl hold
  · exact Or.inr (Or.inl hp)
  · exact Or.inr (Or.inr ⟨n, hn, hnodes n hn⟩)

end Uses

/-- The last step of a set: the zone is stored in a slot of a pointer block. -/
theorem Uses.store {bs b s : ℕ} {disk₀ disk : Mem} {inode : Inode} {P : Set Word} {t : Word}
    (h : Uses bs disk₀ (insert t P) disk inode) (hl : ZoneLayout bs disk)
    (hd : DistinctZones bs disk inode) (hm : MarkedZones bs disk inode)
    (hb : (Node.block b).In bs) (hs : s < ppz bs) (hz : nodeZone bs disk inode (.block b) ≠ 0)
    (hold : nodeZone bs disk inode (.data (blockStart bs b + s)) ≠ 0 →
      Marked bs disk₀ (nodeZone bs disk inode (.data (blockStart bs b + s)))) :
    Uses bs disk₀ P
      (store32 disk (baddr bs (nodeZone bs disk inode (.block b)) + 4 * s) t) inode := by
  have hnew := renews_slot (v := t) (ppz_pos hl) hd (data_in hb hs) (place_data b hs) hz
    (Or.inr (leaf_data bs (blockStart bs b + s)))
  refine h.renew hnew (data_in hb hs) (fun y => (store_map s t hl (hm _ hb hz).1).marked_iff.mp)
    (fun n _ hu => ?_) hl
  obtain rfl := under_data hu
  exact hold

/-! ## The set of the next zone -/

section Next

variable {bs i k s m : ℕ} {disk₀ : Mem} {fs : Fs} {inode : Inode} {t : Word}
  (hl₀ : ZoneLayout bs disk₀) (hm₀ : MarkedZones bs disk₀ inode)
  (ht₀ : Taken bs disk₀ fs.disk t)

include hl₀ hm₀ ht₀

/-- All zones of the tree were there before. -/
theorem tree_before (n : Node) (hn : n.In bs) (hz : nodeZone bs fs.disk inode n ≠ 0) :
    Marked bs disk₀ (nodeZone bs fs.disk inode n) := by
  rw [ht₀.nodeZone_eq hl₀ hm₀ n hn] at hz ⊢
  exact hm₀ n hn hz

/-- So they were when a block is taken on the way. -/
theorem tree_before_block {disk : Mem} {nz : Word} (ht : Taken bs fs.disk disk nz) (n : Node)
    (hn : n.In bs) (hz : nodeZone bs disk inode n ≠ 0) :
    Marked bs disk₀ (nodeZone bs disk inode n) := by
  have hl := (ht₀.extends hl₀).layout hl₀
  have hm := ht₀.markedZones hl₀ hm₀
  rw [ht.nodeZone_eq hl hm n hn] at hz ⊢
  exact tree_before hl₀ hm₀ ht₀ n hn hz

theorem uses_taken : Uses bs disk₀ (insert t ∅) fs.disk inode := Uses.refl.take hl₀ hm₀ ht₀

theorem uses_direct (h7 : i < 7) : ∃ w, zoneWalker bs fs inode i (some t) = some (w, some t) ∧
    Uses bs disk₀ ∅ w.fs.disk w.inode := by
  obtain ⟨r, hr⟩ := setZone_direct bs fs inode t h7
  have hplace : (Node.data i).place bs = .root (Fin.ofNat 10 i) := if_pos h7
  have hnew : Renews bs fs.disk inode fs.disk (inode.setZone (Fin.ofNat 10 i) t) (.data i) t :=
    renews_root (ppz_pos hl₀) hplace (Or.inr (leaf_data bs i))
  have hin : (Node.data i).In bs := data_in_front (h7.trans_le (Nat.le_add_right 7 _))
  exact ⟨_, hr, (uses_taken hl₀ hm₀ ht₀).renew hnew hin (fun _ h => h)
    (fun n hn _ => tree_before hl₀ hm₀ ht₀ n hn) ((ht₀.extends hl₀).layout hl₀)⟩

variable (hd₀ : DistinctZones bs disk₀ inode)

include hd₀

theorem uses_indirect (hpos : 0 < s) (hs : s < ppz bs) (hi : i = blockStart bs 0 + s)
    (hz : inode.zones MX3_IDZONE ≠ 0) :
    ∃ w, zoneWalker bs fs inode i (some t) = some (w, some t) ∧
      Uses bs disk₀ ∅ w.fs.disk w.inode := by
  subst hi
  have hl := (ht₀.extends hl₀).layout hl₀
  have hm := ht₀.markedZones hl₀ hm₀
  have hin := block_in (ppz_pos hl) (Nat.zero_le (ppz bs))
  obtain ⟨r, hr⟩ := setZone_indirect t (show blockStart bs 0 < blockStart bs 0 + s by omega)
    (by rw [blockStart_succ]; omega) hz
  have hblock : nodeZone bs fs.disk inode (.block 0) = inode.zones MX3_IDZONE := rfl
  have haddr := node_baddr32 hl hm (n := .block 0) hin (hblock ▸ hz)
  rw [hblock] at haddr
  rw [Nat.add_sub_cancel_left, haddr] at hr
  have hstore := (uses_taken hl₀ hm₀ ht₀).store hl (ht₀.distinct hl₀ hm₀ hd₀) hm hin hs
    (hblock ▸ hz) (tree_before hl₀ hm₀ ht₀ _ (data_in hin hs))
  rw [hblock] at hstore
  exact ⟨_, hr, hstore⟩

theorem uses_doubly (hk : m < ppz bs) (hpos : 0 < s) (hs : s < ppz bs)
    (hi : i = blockStart bs (1 + m) + s) (hz : pointerBlock bs fs.disk inode (1 + m) ≠ 0) :
    ∃ w, zoneWalker bs fs inode i (some t) = some (w, some t) ∧
      Uses bs disk₀ ∅ w.fs.disk w.inode := by
  subst hi
  have hl := (ht₀.extends hl₀).layout hl₀
  have hm := ht₀.markedZones hl₀ hm₀
  have hin : (Node.block (1 + m)).In bs := block_in (ppz_pos hl) (by omega)
  have hwalked : walkedBlock bs fs.disk inode (1 + m) = pointerBlock bs fs.disk inode (1 + m) :=
    walkedBlock_eq (addressable hl hm) (by omega)
  have haddr : baddr32 bs (pointerBlock bs fs.disk inode (1 + m)) =
      baddr bs (pointerBlock bs fs.disk inode (1 + m)) :=
    node_baddr32 hl hm (n := .block (1 + m)) hin hz
  have hafter : blockStart bs (1 + m) < blockStart bs (1 + m) + s := by omega
  obtain ⟨r, hr⟩ := setZone_doubly t hk hafter (by rw [blockStart_succ]; omega)
    (doubly_ne_zero hk hz) (hwalked ▸ hz)
  rw [Nat.add_sub_cancel_left, hwalked, haddr] at hr
  exact ⟨_, hr, (uses_taken hl₀ hm₀ ht₀).store hl (ht₀.distinct hl₀ hm₀ hd₀) hm hin hs hz
    (tree_before hl₀ hm₀ ht₀ _ (data_in hin hs))⟩

/-- The block for the first indirect zone is in the inode. -/
theorem uses_indirect_fresh (hi : i = blockStart bs 0) (hfree : FreeAhead bs fs (k + 1)) :
    ∃ w, zoneWalker bs fs inode i (some t) = some (w, some t) ∧
      Uses bs disk₀ ∅ w.fs.disk w.inode := by
  subst hi
  have hl := (ht₀.extends hl₀).layout hl₀
  have hm := ht₀.markedZones hl₀ hm₀
  have hd := ht₀.distinct hl₀ hm₀ hd₀
  have hppz := ppz_pos hl
  have hin := block_in hppz (Nat.zero_le (ppz bs))
  obtain ⟨fs₁, nz, hfresh, -⟩ := hfree.freshBlock hl
  obtain ⟨ht, -, -⟩ := freshBlock_taken hl hfresh
  have hl₁ := (ht.extends hl).layout hl
  have hnz : nz ≠ 0 := hl.ne_zero ht.range
  have hroot : Renews bs fs₁.disk inode fs₁.disk (inode.setZone MX3_IDZONE nz) (.block 0) nz :=
    renews_root hppz rfl (Or.inl ht.empty)
  have hm₁ := hroot.markedZones (ht.markedZones hl hm) (fun _ h => h) fun _ =>
    (ht.marked_iff hl nz).mpr (Or.inl rfl)
  have hd₁ := hroot.distinct (ht.distinct hl hm hd) fun _ n hn => ht.fresh hl hm hn
  have hbefore := tree_before_block hl₀ hm₀ ht₀ ht
  have huses := ((uses_taken hl₀ hm₀ ht₀).take hl hm ht).renew hroot hin (fun _ h => h)
    (fun n hn _ => hbefore n hn) hl₁
  obtain ⟨r, hr⟩ := setZone_indirect_fresh t hppz rfl hfresh hnz
  rw [baddr32_eq (hl.baddr_lt ht.range)] at hr
  have hdata := hroot.below (.data (blockStart bs 0 + 0)) (data_in hin hppz)
    (.slot (place_data 0 hppz) .refl) (by simp)
  have hstore := huses.store hl₁ hd₁ hm₁ hin hppz (by rwa [hroot.here]) (absurd hdata)
  rw [hroot.here, Nat.mul_zero, Nat.add_zero] at hstore
  exact ⟨_, hr, hstore⟩

/-- The block for the first zone below slot `m` of the doubly indirect block is in that slot. -/
theorem uses_doubly_fresh (hk : m < ppz bs) (hpos : 0 < m) (hi : i = blockStart bs (1 + m))
    (hz : inode.zones MX3_IIDZONE ≠ 0) (hfree : FreeAhead bs fs (k + 1)) :
    ∃ w, zoneWalker bs fs inode i (some t) = some (w, some t) ∧
      Uses bs disk₀ ∅ w.fs.disk w.inode := by
  subst hi
  have hl := (ht₀.extends hl₀).layout hl₀
  have hm := ht₀.markedZones hl₀ hm₀
  have hd := ht₀.distinct hl₀ hm₀ hd₀
  have hppz := ppz_pos hl
  have hin : (Node.block (1 + m)).In bs := block_in hppz (by omega)
  obtain ⟨fs₁, nz, hfresh, -⟩ := hfree.freshBlock hl
  obtain ⟨ht, -, -⟩ := freshBlock_taken hl hfresh
  have hl₁ := (ht.extends hl).layout hl
  have hnz : nz ≠ 0 := hl.ne_zero ht.range
  have hdoubly : Marked bs fs.disk (inode.zones MX3_IIDZONE) := hm .doubly trivial hz
  have hdoubly₁ : Marked bs fs₁.disk (inode.zones MX3_IIDZONE) :=
    (ht.marked_iff hl _).mpr (Or.inr hdoubly)
  have hslot := renews_slot (v := nz) hppz (ht.distinct hl hm hd) hin (place_block m hk) hz
    (Or.inl ⟨ht.empty, (ht.fresh hl hm (n := .doubly) trivial).symm⟩)
  have hmap := store_map m nz hl₁ hdoubly₁.1
  have hm₁ := hslot.markedZones (ht.markedZones hl hm) (fun _ => hmap.marked_iff.mpr) fun _ =>
    hmap.marked_iff.mpr ((ht.marked_iff hl nz).mpr (Or.inl rfl))
  have hd₁ := hslot.distinct (ht.distinct hl hm hd) fun _ n hn => ht.fresh hl hm hn
  have hbefore := tree_before_block hl₀ hm₀ ht₀ ht
  have huses := ((uses_taken hl₀ hm₀ ht₀).take hl hm ht).renew hslot hin
    (fun _ => hmap.marked_iff.mp) (fun n hn _ => hbefore n hn) hl₁
  have hl₂ := (store_writes (v := nz) hl₁ hdoubly₁.1 hk).layout hl₁
  obtain ⟨r, hr⟩ := setZone_doubly_fresh t hk hpos rfl hz hfresh hnz
  rw [baddr32_eq (hl.baddr_lt ht.range), baddr32_eq (hl.baddr_lt hdoubly.1),
    blit_window_taken ht hl hdoubly hk] at hr
  have hdata := hslot.below (.data (blockStart bs (1 + m) + 0)) (data_in hin hppz)
    (.slot (place_data (1 + m) hppz) .refl) (by simp)
  have hstore := huses.store hl₂ hd₁ hm₁ hin hppz (by rwa [hslot.here]) (absurd hdata)
  rw [hslot.here, Nat.mul_zero, Nat.add_zero] at hstore
  exact ⟨_, hr, hstore⟩

/-- Two blocks for the first doubly indirect zone. -/
theorem uses_doubly_first (hi : i = blockStart bs 1) (hfree : FreeAhead bs fs (k + 2)) :
    ∃ w, zoneWalker bs fs inode i (some t) = some (w, some t) ∧
      Uses bs disk₀ ∅ w.fs.disk w.inode := by
  subst hi
  have hl := (ht₀.extends hl₀).layout hl₀
  have hm := ht₀.markedZones hl₀ hm₀
  have hd := ht₀.distinct hl₀ hm₀ hd₀
  have hppz := ppz_pos hl
  have hin : (Node.block 1).In bs := block_in hppz hppz
  obtain ⟨fs₁, nz, hfresh, hfree⟩ := hfree.freshBlock hl
  obtain ⟨ht, -, -⟩ := freshBlock_taken hl hfresh
  have hl₁ := (ht.extends hl).layout hl
  obtain ⟨fs₂, nz₂, hfresh₂, -⟩ := hfree.freshBlock hl₁
  obtain ⟨ht₂, -, -⟩ := freshBlock_taken hl₁ hfresh₂
  have hl₂ := (ht₂.extends hl₁).layout hl₁
  have hnz : nz ≠ 0 := hl.ne_zero ht.range
  have hnz₂ : nz₂ ≠ 0 := hl₁.ne_zero ht₂.range
  have hmarked : Marked bs fs₁.disk nz := (ht.marked_iff hl nz).mpr (Or.inl rfl)
  -- the root
  have hroot : Renews bs fs₁.disk inode fs₁.disk (inode.setZone MX3_IIDZONE nz) .doubly nz :=
    renews_root hppz rfl (Or.inl ht.empty)
  have hm₁ := hroot.markedZones (ht.markedZones hl hm) (fun _ h => h) fun _ => hmarked
  have hd₁ := hroot.distinct (ht.distinct hl hm hd) fun _ n hn => ht.fresh hl hm hn
  have hbefore := tree_before_block hl₀ hm₀ ht₀ ht
  have huses := ((uses_taken hl₀ hm₀ ht₀).take hl hm ht).renew hroot trivial (fun _ h => h)
    (fun n hn _ => hbefore n hn) hl₁
  -- its first slot
  have hblock : nodeZone bs fs₂.disk (inode.setZone MX3_IIDZONE nz) .doubly = nz :=
    Inode.setZone_same inode MX3_IIDZONE nz
  have hother : nz ≠ nz₂ := hblock ▸ ht₂.fresh hl₁ hm₁ (n := .doubly) trivial
  have hmarked₂ : Marked bs fs₂.disk nz := (ht₂.marked_iff hl₁ nz).mpr (Or.inr hmarked)
  have hd₂ := ht₂.distinct hl₁ hm₁ hd₁
  have hslot := renews_slot (v := nz₂) hppz hd₂ hin (place_block 0 hppz)
    (by rwa [hblock]) (Or.inl ⟨ht₂.empty, by rw [hblock]; exact hother.symm⟩)
  rw [hblock, Nat.mul_zero, Nat.add_zero] at hslot
  have hmap := store_map 0 nz₂ hl₂ hmarked₂.1
  rw [Nat.mul_zero, Nat.add_zero] at hmap
  have hm₂ := hslot.markedZones (ht₂.markedZones hl₁ hm₁) (fun _ => hmap.marked_iff.mpr) fun _ =>
    hmap.marked_iff.mpr ((ht₂.marked_iff hl₁ nz₂).mpr (Or.inl rfl))
  have hd₃ := hslot.distinct hd₂ fun _ n hn => ht₂.fresh hl₁ hm₁ hn
  have huses₂ := (huses.take hl₁ hm₁ ht₂).renew hslot hin (fun _ => hmap.marked_iff.mp)
    (fun n hn hu hz => by
      have hunder : (fileShape bs).Under .doubly n :=
        Shape.Under.trans (.slot (place_block 0 hppz) .refl) hu
      rw [ht₂.nodeZone_eq hl₁ hm₁ n hn] at hz
      refine absurd (hroot.below n hn hunder fun heq => ?_) hz
      exact Shape.not_under_of_slot (place_block 0 hppz) (heq ▸ hu)) hl₂
  have hl₃ := (store_writes (s := 0) (v := nz₂) hl₂ hmarked₂.1 hppz).layout hl₂
  rw [Nat.mul_zero, Nat.add_zero] at hl₃
  obtain ⟨r, hr⟩ := setZone_doubly_first t hppz rfl hfresh hnz hfresh₂ hnz₂
  have hblit := blit_window_taken (t := nz₂) ht₂ hl₁ hmarked hppz
  rw [Nat.mul_zero, Nat.add_zero] at hblit
  rw [baddr32_eq (hl₁.baddr_lt ht₂.range), baddr32_eq (hl.baddr_lt ht.range), hblit] at hr
  have hdata := hslot.below (.data (blockStart bs 1 + 0)) (data_in hin hppz)
    (.slot (place_data 1 hppz) .refl) (by simp)
  have hstore := huses₂.store hl₃ hd₃ hm₂ hin hppz (by rwa [hslot.here]) (absurd hdata)
  rw [hslot.here, Nat.mul_zero, Nat.add_zero] at hstore
  exact ⟨_, hr, hstore⟩

/-- The next index of a file without gaps. -/
theorem uses_next (hi : i < blockStart bs (1 + ppz bs))
    (hbefore : ∀ j < i, fileZone bs fs.disk inode j ≠ 0)
    (hfree : FreeAhead bs fs (k + blockCost bs i)) :
    ∃ w, zoneWalker bs fs inode i (some t) = some (w, some t) ∧
      Uses bs disk₀ ∅ w.fs.disk w.inode := by
  have hppz := ppz_pos hl₀
  by_cases h7 : i < 7
  · exact uses_direct hl₀ hm₀ ht₀ h7
  obtain ⟨b, s, hb, hs, rfl⟩ := exists_index hppz (not_lt.mp h7) hi
  rcases Nat.eq_zero_or_pos s with rfl | hpos
  · rw [Nat.add_zero] at *
    rw [blockCost_start b hppz] at hfree
    rcases Nat.eq_zero_or_pos b with rfl | hbpos
    · exact uses_indirect_fresh hl₀ hm₀ ht₀ hd₀ rfl hfree
    obtain ⟨m, rfl⟩ := Nat.exists_eq_add_of_le hbpos
    rcases Nat.eq_zero_or_pos m with rfl | hm
    · exact uses_doubly_first hl₀ hm₀ ht₀ hd₀ rfl hfree
    · rw [if_neg (by omega)] at hfree
      exact uses_doubly_fresh hl₀ hm₀ ht₀ hd₀ (by omega) hm rfl
        (doubly_before hm (by omega) hbefore) hfree
  · have hz := block_before hpos hs hbefore
    rcases Nat.eq_zero_or_pos b with rfl | hbpos
    · exact uses_indirect hl₀ hm₀ ht₀ hd₀ hpos hs rfl hz
    · obtain ⟨m, rfl⟩ := Nat.exists_eq_add_of_le hbpos
      exact uses_doubly hl₀ hm₀ ht₀ hd₀ (by omega) hpos hs rfl hz

end Next

/-! ## One call -/

section Appended

variable {bs i k : ℕ} {fs : Fs} {inode : Inode} {z : Word} {w : Walk}

theorem ZoneAppended.taken (ha : ZoneAppended bs fs inode i k z w) (hl : ZoneLayout bs fs.disk) :
    Taken bs fs.disk (fs.taking bs z).disk z := by
  obtain ⟨hr, hfree, -⟩ := getAvailableZone_some hl ha.available
  exact Taken.of_free hl hr hfree

/-- The zone and the pointer blocks of a new index are in the tree. -/
theorem ZoneAppended.uses (ha : ZoneAppended bs fs inode i k z w) (hl : ZoneLayout bs fs.disk)
    (hd : DistinctZones bs fs.disk inode) (hm : MarkedZones bs fs.disk inode)
    (hw : Whole bs fs.disk inode) (hsize : inode.size.toNat = i * bs)
    (hfree : FreeAhead bs fs (k + blockCost bs i + 1)) :
    Uses bs fs.disk ∅ w.fs.disk w.inode := by
  have ht := ha.taken hl
  obtain ⟨z', hget, -, hrest⟩ := hfree.found hl
  obtain rfl : z' = z := by
    rw [ha.available] at hget
    exact (Prod.mk.inj (Option.some.inj hget)).2.symm
  have hup := hw.zonesUpTo hl.pos hsize
  have hbefore : ∀ j < i, fileZone bs (fs.taking bs z').disk inode j ≠ 0 := by
    intro j hj
    have hin := data_in_front (hj.trans ha.atEnd.front)
    have hsame : fileZone bs (fs.taking bs z').disk inode j = fileZone bs fs.disk inode j :=
      ht.nodeZone_eq hl hm (.data j) hin
    rw [hsame]
    exact (hup j hin).mpr hj
  obtain ⟨w', hwalk, huses⟩ := uses_next hl hm ht hd ha.atEnd.front hbefore (hrest _ ht rfl)
  rw [ha.walk] at hwalk
  obtain rfl := (Prod.mk.inj (Option.some.inj hwalk)).1
  exact huses

/-- A direct pointer is the only one that is set. -/
theorem ZoneAppended.roots (ha : ZoneAppended bs fs inode i k z w) (h7 : i < 7) {r : Fin 10}
    (hr : r ≠ Fin.ofNat 10 i) : w.inode.zones r = inode.zones r := by
  obtain ⟨_, hwalk⟩ := setZone_direct bs (fs.taking bs z) inode z h7
  rw [ha.walk] at hwalk
  obtain rfl := (Prod.mk.inj (Option.some.inj hwalk)).1
  exact Function.update_of_ne hr z inode.zones

/-- What a call has done to the bitmap and to the tree of its file. -/
structure Takes (bs : ℕ) (disk : Mem) (inode : Inode) (disk' : Mem) (inode' : Inode) : Prop where
  uses : Uses bs disk ∅ disk' inode'
  marks : ∀ z, Marked bs disk z → Marked bs disk' z
  origin : ∀ p : Node, p.In bs → nodeZone bs disk' inode' p ≠ 0 →
    nodeZone bs disk' inode' p = nodeZone bs disk inode p ∨
      ¬ Marked bs disk (nodeZone bs disk' inode' p)
  within : ¬ bs ∣ inode.size.toNat → SameMap bs disk disk' ∧
    ∀ p : Node, p.In bs → nodeZone bs disk' inode' p = nodeZone bs disk inode p
  roots : inode.size.toNat = 0 → ∀ r ≠ 0, inode'.zones r = inode.zones r

/-- Steps that leave the bitmap and the tree alone come before or behind. -/
theorem Takes.same {disk disk₁ disk₂ : Mem} {inode₁ inode₂ : Inode}
    (h : Takes bs disk inode disk₁ inode₁) (hmap : SameMap bs disk₁ disk₂)
    (hnodes : ∀ p : Node, p.In bs → nodeZone bs disk₂ inode₂ p = nodeZone bs disk₁ inode₁ p)
    (hzones : inode₂.zones = inode₁.zones) : Takes bs disk inode disk₂ inode₂ where
  uses := h.uses.same (fun _ => hmap.marked_iff.mp) hnodes
  marks z hz := hmap.marked_iff.mpr (h.marks z hz)
  origin p hp hz := by
    rw [hnodes p hp] at hz ⊢
    exact h.origin p hp hz
  within hpart := ⟨(h.within hpart).1.trans hmap, fun p hp =>
    (hnodes p hp).trans ((h.within hpart).2 p hp)⟩
  roots hzero r hr := hzones ▸ h.roots hzero r hr

end Appended

namespace FileOps

open LiveBlocks

variable {dev : Mount} {fs : Fs} {inode : Inode} {i k n : ℕ}

theorem written_same {bs o len : ℕ} {disk : Mem} {node : Inode} (inode₂ : Inode)
    (hl : ZoneLayout bs disk) (hd : DistinctZones bs disk node) (hm : MarkedZones bs disk node)
    (hend : AtEnd bs disk node i o) (hlen : o + len ≤ bs) (data : Mem)
    (hsame : inode₂.zones = node.zones) :
    SameMap bs disk (written bs disk (fileZone bs disk node i) o len data) ∧
      ∀ p : Node, p.In bs →
        nodeZone bs (written bs disk (fileZone bs disk node i) o len data) inode₂ p
          = nodeZone bs disk node p :=
  ⟨written_map hl (hm (.data i) (data_in_front hend.front) hend.zone).1,
    hend.nodes data hl hd hlen hsame⟩

/-- The first step of a call takes no zone; it is the whole call if the bytes fit in the last
zone. -/
structure Fills (bs : ℕ) (fs : Fs) (inode : Inode) (size : Word) (a : Append) (fs' : Fs) :
    Prop where
  map : SameMap bs fs.disk fs'.disk
  zones : a.node.zones = inode.zones
  nodes : ∀ p : Node, p.In bs → nodeZone bs fs'.disk a.node p = nodeZone bs fs.disk inode p
  left : a.size.toNat ≤ size.toNat
  empty : inode.size.toNat = 0 → a.node = inode
  within : ¬ bs ∣ inode.size.toNat → size.toNat + inode.size.toNat % bs ≤ bs → a.size = 0

theorem fillBlock_takes {data : Mem} {size : Word} (h : Sound dev.bs fs.disk inode)
    (hi : i = (inode.size.toNat - 1) / dev.bs) :
    Ensures ∅ (At fs) (fillBlock dev (baddr dev.bs (fileZone dev.bs fs.disk inode i))
        (inode.size.toNat - i * dev.bs) ⟨inode, data, size⟩) fun a m =>
      Fills dev.bs fs inode size a m.fs := by
  apply (fillBlock_writes h hi).weaken
  rintro a m (⟨hsize, rfl, hm⟩ | ⟨o, write_size, ho, hroom, hsize, hle, hcases, rfl, hm⟩)
  · rw [hm]
    refine ⟨.of_low h.layout fun _ _ => rfl, rfl, fun _ _ => rfl, le_rfl, fun _ => rfl,
      fun hpart => absurd ?_ hpart⟩
    rw [hsize]
    exact dvd_zero _
  have hend := h.whole.atEnd ho (by omega) hsize
  obtain ⟨hmap, hnodes⟩ := written_same { inode with size := inode.size + write_size }
    h.layout h.distinct h.marked hend hroom data rfl
  rw [hm]
  refine ⟨hmap, rfl, hnodes, ?_, fun hempty => absurd hempty (by omega), fun hpart hfits => ?_⟩
  · change (size - write_size).toNat ≤ _
    rw [BitVec.toNat_sub_of_le hle]
    exact Nat.sub_le _ _
  · have hlt : o < dev.bs := by
      by_contra hge
      refine hpart ⟨i + 1, ?_⟩
      rw [hsize, Nat.mul_add_one, Nat.mul_comm i]
      omega
    rw [hsize, Nat.mul_add_mod_of_lt hlt] at hfits
    have heq : write_size = size := by
      rcases hcases with hfull | heq
      · exact BitVec.eq_of_toNat_eq (by omega)
      · exact heq
    rw [heq]
    exact sub_self _

/-- The loop for one block at most. -/
structure TakesBlock (bs : ℕ) (fs : Fs) (a : Append) (node : Inode) (fs' : Fs) : Prop where
  uses : Uses bs fs.disk ∅ fs'.disk node
  none : a.size = 0 → node = a.node ∧ fs' = fs
  roots : a.node.size.toNat = 0 → ∀ r ≠ 0, node.zones r = a.node.zones r

theorem appendBlocks_takes {a : Append} (h : Sound dev.bs fs.disk a.node) (hfull : Full dev.bs a)
    (hone : a.size.toNat ≤ dev.bs)
    (hlimit : a.node.size.toNat + a.size.toNat ≤ blockStart dev.bs (1 + ppz dev.bs) * dev.bs)
    (hfree : FreeAhead dev.bs fs (growCost dev.bs a.node.size.toNat a.size.toNat)) :
    Ensures ∅ (At fs) (appendBlocks dev (n + 2) a) fun node m =>
      TakesBlock dev.bs fs a node m.fs := by
  have hpos := h.layout.pos
  simp only [appendBlocks]
  by_cases hzero : a.size = 0
  · rw [if_pos hzero]
    apply ensures_pure
    intro m hm
    rw [hm]
    exact ⟨.refl, fun _ => ⟨rfl, rfl⟩, fun _ _ _ => rfl⟩
  rw [if_neg hzero]
  obtain ⟨i, hi⟩ := hfull.resolve_left hzero
  have hleft : 0 < a.size.toNat := Nat.pos_of_ne_zero fun he => hzero (BitVec.eq_of_toNat_eq he)
  have hfront : i < blockStart dev.bs (1 + ppz dev.bs) := by
    refine Nat.lt_of_mul_lt_mul_right (?_ : i * dev.bs < _)
    omega
  rw [hi, growCost_block hleft hone, ← Nat.zero_add (blockCost dev.bs i)] at hfree
  obtain ⟨z, w, ha, hcall⟩ := appendZone_sound h hi hfront hfree
  have huses := ha.uses h.layout h.distinct h.marked h.whole hi hfree
  have hl' := ha.grown.writes.layout h.layout
  have hend := ha.end_lt h.layout
  rw [Nat.succ_mul] at hend
  have hwrite : (if BitVec.ofNat 32 dev.bs < a.size then BitVec.ofNat 32 dev.bs else a.size)
      = a.size := by
    apply if_neg
    rw [BitVec.lt_def, BitVec.toNat_ofNat, Nat.mod_eq_of_lt (by omega)]
    omega
  apply hcall.step
  dsimp only
  rw [hwrite]
  apply (writing_ensures (blockWriteArbitrary_computes _ _ _)).bind
  intro _
  have hdone : (Append.written { a with node := w.inode } a.size).size = 0 := sub_self _
  rw [if_pos hdone]
  apply ensures_pure
  intro m hm
  obtain ⟨hmap, hnodes⟩ := written_same { w.inode with size := w.inode.size + a.size }
    hl' ha.grown.distinct ha.grown.marked ha.atEnd
    (show 0 + a.size.toNat ≤ dev.bs by omega) a.buffer rfl
  rw [ha.zone] at hmap hnodes
  rw [hm]
  refine ⟨huses.same (fun _ => hmap.marked_iff.mp) hnodes, fun hno => absurd hno hzero,
    fun hempty r hr => ?_⟩
  have hi0 : i = 0 := by
    rw [hempty] at hi
    exact (Nat.mul_eq_zero.mp hi.symm).resolve_right hpos.ne'
  subst hi0
  exact ha.roots (by decide) hr

/-- A call for at most one block that crosses no boundary between zones. -/
theorem appendToFile_takes {n : Word} {buffer : Mem} {size : Word}
    (hc : Consistent dev.bs fs.disk) (hn : InUse dev.bs fs.disk n)
    (hw : Whole dev.bs fs.disk (Minix3.getInode dev.bs fs.disk n))
    (hlimit : (Minix3.getInode dev.bs fs.disk n).size.toNat + size.toNat ≤
      blockStart dev.bs (1 + ppz dev.bs) * dev.bs)
    (hfree : FreeAhead dev.bs fs
      (growCost dev.bs (Minix3.getInode dev.bs fs.disk n).size.toNat size.toNat))
    (hone : size.toNat + (Minix3.getInode dev.bs fs.disk n).size.toNat % dev.bs ≤ dev.bs) :
    Ensures ∅ (At fs) (appendToFile dev n buffer size) fun _ m =>
      Takes dev.bs fs.disk (Minix3.getInode dev.bs fs.disk n) m.fs.disk
        (Minix3.getInode dev.bs m.fs.disk n) := by
  have h := hc.sound hn hw
  apply Ensures.allocate
  intro f_inode _
  apply (getInode_ensures n).step
  dsimp only
  rw [if_neg (not_not.mpr rfl)]
  apply Ensures.allocate
  intro zone hzone
  apply (getLastFileZone_sound h).bind
  intro i
  apply Ensures.given
  intro hi
  apply (gzbars_sound h (lastZone_inside hi)).step
  rw [← Nat.zero_add (growCost _ _ _)] at hfree
  apply ((fillBlock_sound (k := 0) h hi hfree).and (fillBlock_takes h hi)).bind
  intro a
  apply ensures_at (P := fun fs' => (∃ done, Writing dev.bs fs _ buffer size.toNat 0 done fs' a ∧
    Full dev.bs a) ∧ Fills dev.bs fs _ size a fs')
  rintro fs₁ ⟨⟨done, hwriting, hfull⟩, hfills⟩
  have hle := hfills.left
  have hsound := hwriting.longer.sound h.layout
  have hsize := hwriting.longer.size
  rw [length_listed] at hsize
  have htotal := hwriting.left
  have hfree₁ := hwriting.free
  rw [Nat.zero_add] at hfree₁
  obtain ⟨l, hrounds⟩ : ∃ l, rounds = l + 2 := ⟨_, rfl⟩
  rw [hrounds]
  apply ((appendBlocks_sound h.layout hwriting hfull hlimit
    (n := l + 2) (by have := a.size.isLt; unfold rounds at hrounds; omega)).and
    (appendBlocks_takes (n := l) hsound hfull (by omega) (by omega) hfree₁)).bind
  intro node
  apply ensures_at (P := fun fs' => (LongerBy dev.bs fs _ (listed buffer size.toNat) fs' node ∧
    FreeAhead dev.bs fs' 0) ∧ TakesBlock dev.bs fs₁ a node fs')
  rintro fs₂ ⟨⟨hlonger, -⟩, hblock⟩
  have hsuper := hlonger.grown.writes.super h.layout
  have hin : InTable fs₂.disk n := by
    rw [InTable, hsuper]
    exact hn.1
  have hl₂ := hc.layout.congr hsuper
  have htakes : Takes dev.bs fs.disk (Minix3.getInode dev.bs fs.disk n) fs₂.disk node := by
    refine ⟨fun z hz => ?_, hlonger.grown.writes.marks, hlonger.grown.origin, fun hpart => ?_,
      fun hzero r hr => ?_⟩
    · exact (hblock.uses z hz).imp hfills.map.marked_iff.mp id
    · obtain ⟨rfl, rfl⟩ := hblock.none (hfills.within hpart hone)
      exact ⟨hfills.map, hfills.nodes⟩
    · rw [hblock.roots (by rw [hfills.empty hzero]; exact hzero) r hr, hfills.zones]
  apply Ensures.release hzone
  apply (putInode_ensures n node).bind
  intro _
  apply Ensures.release (Finset.notMem_empty f_inode)
  apply ensures_pure
  intro m hm
  rw [hm, Fs.withDisk_disk, getInode_putInode node hl₂ hin]
  exact htakes.same (putInode_map node hl₂ hin)
    (putInode_kept node hl₂ hin hlonger.grown.marked).nodes rfl

end FileOps

end Minix3
