import DucreuOS.ZoneUpdate

/-! # A file that grows

What `minix3_append_zone` does to the device and to the tree of a file: free zones are taken, the
next index of the file names one of them, and of the zones in use only the pointer blocks of the
file are written. -/
namespace Minix3

open ByteMemory PlacedTree

/-! ## Trees that only take free zones -/

section Grown

variable {bs : ℕ} {disk₀ disk disk₁ : Mem} {inode₀ inode inode₁ : Inode} {W W₁ : Set Word}
  {y z v : Word} {q p : Node}

/-- The zones that a file names. -/
def treeZones (bs : ℕ) (disk : Mem) (inode : Inode) : Set Word :=
  {z | ∃ n : Node, n.In bs ∧ nodeZone bs disk inode n = z}

/-- Those of them that are pointer blocks. -/
def blockZones (bs : ℕ) (disk : Mem) (inode : Inode) : Set Word :=
  {z | ∃ p : Node, p.In bs ∧ ¬ Leaf bs p ∧ nodeZone bs disk inode p = z}

theorem blockZones_subset : blockZones bs disk inode ⊆ treeZones bs disk inode :=
  fun _ ⟨p, hp, _, hz⟩ => ⟨p, hp, hz⟩

/-- Since `disk₀` only free zones and those of `W` have been written, and a place of the tree that
names another zone than it did names one that was free. -/
structure Grown (bs : ℕ) (W : Set Word) (disk₀ : Mem) (inode₀ : Inode) (disk : Mem)
    (inode : Inode) : Prop where
  writes : Extends bs W disk₀ disk
  distinct : DistinctZones bs disk inode
  marked : MarkedZones bs disk inode
  origin : ∀ n : Node, n.In bs → nodeZone bs disk inode n ≠ 0 →
    nodeZone bs disk inode n = nodeZone bs disk₀ inode₀ n ∨
      ¬ Marked bs disk₀ (nodeZone bs disk inode n)

/-- A zone taken since `disk₀` that the tree does not name. -/
structure Fresh (bs : ℕ) (disk₀ disk : Mem) (inode : Inode) (z : Word) : Prop where
  new : ¬ Marked bs disk₀ z
  marked : Marked bs disk z
  apart : ∀ n : Node, n.In bs → nodeZone bs disk inode n ≠ z

/-- A zone that was free may be written anyway. -/
theorem Extends.of_free (h : Extends bs W₁ disk disk₁)
    (hW : W₁ ⊆ W ∪ {z | ¬ Marked bs disk z}) : Extends bs W disk disk₁ where
  metadata := h.metadata
  zones z hz hw := h.zones z hz fun hw₁ => (hW hw₁).elim hw fun hfree => hfree hz
  marks := h.marks

theorem Grown.refl (hd : DistinctZones bs disk inode) (hm : MarkedZones bs disk inode) :
    Grown bs W disk inode disk inode where
  writes := (Extends.refl bs disk).mono (Set.empty_subset W)
  distinct := hd
  marked := hm
  origin _ _ _ := Or.inl rfl

theorem Grown.trans (g : Grown bs W disk₀ inode₀ disk inode)
    (g' : Grown bs W₁ disk inode disk₁ inode₁) (hl : ZoneLayout bs disk₀)
    (hW : W₁ ⊆ W ∪ {z | ¬ Marked bs disk₀ z}) : Grown bs W disk₀ inode₀ disk₁ inode₁ where
  writes := (g.writes.trans g'.writes hl).of_free (Set.union_subset Set.subset_union_left hW)
  distinct := g'.distinct
  marked := g'.marked
  origin n hn hz := by
    rcases g'.origin n hn hz with heq | hfree
    · rw [heq] at hz ⊢
      exact g.origin n hn hz
    · exact Or.inr fun hmarked => hfree (g.writes.marks _ hmarked)

/-- What the file names later is what it named, or was free. -/
theorem Grown.zones (g : Grown bs W disk₀ inode₀ disk inode) (hl : ZoneLayout bs disk₀) {n : Node}
    (hn : n.In bs) : nodeZone bs disk inode n = nodeZone bs disk₀ inode₀ n ∨
      ¬ Marked bs disk₀ (nodeZone bs disk inode n) := by
  by_cases hz : nodeZone bs disk inode n = 0
  · exact Or.inr fun hmarked => hl.ne_zero hmarked.1 hz
  · exact g.origin n hn hz

theorem Grown.tree_subset (g : Grown bs W disk₀ inode₀ disk inode) (hl : ZoneLayout bs disk₀) :
    treeZones bs disk inode ⊆ treeZones bs disk₀ inode₀ ∪ {z | ¬ Marked bs disk₀ z} := by
  rintro _ ⟨n, hn, rfl⟩
  exact (g.zones hl hn).imp (fun heq => ⟨n, hn, heq.symm⟩) id

theorem Grown.block_subset (g : Grown bs W disk₀ inode₀ disk inode) (hl : ZoneLayout bs disk₀) :
    blockZones bs disk inode ⊆ blockZones bs disk₀ inode₀ ∪ {z | ¬ Marked bs disk₀ z} := by
  rintro _ ⟨p, hp, hleaf, rfl⟩
  exact (g.zones hl hp).imp (fun heq => ⟨p, hp, hleaf, heq.symm⟩) id

/-! A zone is taken. -/

theorem Grown.take (g : Grown bs W disk₀ inode₀ disk inode) (hl : ZoneLayout bs disk₀)
    (ht : Taken bs disk disk₁ z) : Grown bs W disk₀ inode₀ disk₁ inode := by
  have hl₁ := g.writes.layout hl
  have hstep : Grown bs ∅ disk inode disk₁ inode :=
    ⟨ht.extends hl₁, ht.distinct hl₁ g.marked g.distinct, ht.markedZones hl₁ g.marked,
      fun n hn _ => Or.inl (ht.nodeZone_eq hl₁ g.marked n hn)⟩
  exact g.trans hstep hl (Set.empty_subset _)

theorem Grown.fresh (g : Grown bs W disk₀ inode₀ disk inode) (hl : ZoneLayout bs disk₀)
    (ht : Taken bs disk disk₁ z) : Fresh bs disk₀ disk₁ inode z where
  new hmarked := ht.not_marked (g.writes.marks z hmarked)
  marked := (ht.marked_iff (g.writes.layout hl) z).mpr (Or.inl rfl)
  apart _ hn := ht.fresh (g.writes.layout hl) g.marked hn

theorem Fresh.take (hf : Fresh bs disk₀ disk inode z) (hl : ZoneLayout bs disk)
    (hm : MarkedZones bs disk inode) (ht : Taken bs disk disk₁ y) :
    Fresh bs disk₀ disk₁ inode z where
  new := hf.new
  marked := (ht.marked_iff hl z).mpr (Or.inr hf.marked)
  apart n hn := by
    rw [ht.nodeZone_eq hl hm n hn]
    exact hf.apart n hn

/-! A place is renewed. -/

theorem Grown.renew (g : Grown bs W disk₀ inode₀ disk inode) (hl : ZoneLayout bs disk₀)
    (hf : Fresh bs disk₀ disk inode v) (hr : Renews bs disk inode disk₁ inode₁ q v)
    (hw : Extends bs W₁ disk disk₁) (hW : W₁ ⊆ W ∪ {z | ¬ Marked bs disk₀ z}) :
    Grown bs W disk₀ inode₀ disk₁ inode₁ where
  writes := (g.writes.trans hw hl).of_free (Set.union_subset Set.subset_union_left hW)
  distinct := hr.distinct g.distinct fun _ => hf.apart
  marked := hr.markedZones g.marked hw.marks fun _ => hw.marks v hf.marked
  origin n hn hz := by
    rcases hr.cases hn hz with ⟨-, heq⟩ | ⟨-, heq⟩
    · exact Or.inr (heq.symm ▸ hf.new)
    · rw [heq] at hz ⊢
      exact g.origin n hn hz

theorem Fresh.renew (hf : Fresh bs disk₀ disk inode z) (hr : Renews bs disk inode disk₁ inode₁ q v)
    (hmarks : ∀ y, Marked bs disk y → Marked bs disk₁ y) (hz : z ≠ 0) (hne : z ≠ v) :
    Fresh bs disk₀ disk₁ inode₁ z where
  new := hf.new
  marked := hmarks z hf.marked
  apart n hn heq := by
    rcases hr.cases hn (heq.symm ▸ hz) with ⟨-, hv⟩ | ⟨-, hold⟩
    · exact hne (heq.symm.trans hv)
    · exact hf.apart n hn (hold.symm.trans heq)

/-- A store in a pointer block. -/
theorem store_writes {s : ℕ} (hl : ZoneLayout bs disk) (hz : isZoneInRange disk z = true)
    (hs : s < ppz bs) : Extends bs {z} disk (store32 disk (baddr bs z + 4 * s) v) := by
  refine .of_write hl hz fun x hx => blit_outside ?_
  unfold ppz at hs
  unfold InZone at hx
  omega

end Grown

/-! ## The zones ahead of the allocator -/

section Ahead

variable {bs k : ℕ} {fs fs' : Fs} {disk disk' : Mem} {z : Word}

/-- At least `k` free zones lie where the search for one begins, or behind. -/
def FreeAhead (bs : ℕ) (fs : Fs) (k : ℕ) : Prop :=
  (getSuperblock fs.disk).firstZone ≤ searchStart fs ∧
    ∃ S : Finset Word, k ≤ S.card ∧ ∀ z ∈ S, FreeZone bs fs.disk z ∧ searchStart fs ≤ z

theorem FreeAhead.mono {m : ℕ} (h : FreeAhead bs fs k) (hm : m ≤ k) : FreeAhead bs fs m := by
  obtain ⟨hfirst, S, hcard, hS⟩ := h
  exact ⟨hfirst, S, hm.trans hcard, hS⟩

/-- The superblock and the bitmap of the zones are what they were. -/
structure SameMap (bs : ℕ) (disk disk' : Mem) : Prop where
  super : getSuperblock disk' = getSuperblock disk
  bits : ∀ x < zmapEnd bs disk, (getSuperblock disk).zmapStart bs ≤ x → disk' x = disk x

namespace SameMap

theorem of_low (hl : ZoneLayout bs disk) (h : ∀ x < zmapEnd bs disk, disk' x = disk x) :
    SameMap bs disk disk' where
  super := getSuperblock_congr fun x hx =>
    h x (hx.trans_le (hl.super.trans (Nat.le_add_right _ _)))
  bits x hx _ := h x hx

variable (h : SameMap bs disk disk')

include h

theorem trans {disk'' : Mem} (h' : SameMap bs disk' disk'') : SameMap bs disk disk'' where
  super := h'.super.trans h.super
  bits x hx hx' := by
    have hend : zmapEnd bs disk' = zmapEnd bs disk := by simp only [zmapEnd, h.super]
    rw [h'.bits x (hend ▸ hx) (h.super ▸ hx'), h.bits x hx hx']

theorem inRange (z : Word) : isZoneInRange disk' z = isZoneInRange disk z := by
  simp only [isZoneInRange, h.super]

theorem occupied (hr : isZoneInRange disk z = true) :
    isZoneOccupied bs disk' z = isZoneOccupied bs disk z := by
  rw [occupied_inRange (h.inRange z ▸ hr), occupied_inRange hr, h.super,
    bitAt_congr (h.bits _ (ZoneLayout.bit_lt bs hr) (Nat.le_add_right _ _))]

theorem free_iff : FreeZone bs disk' z ↔ FreeZone bs disk z := by
  unfold FreeZone
  rw [h.inRange]
  exact and_congr_right fun hr => by rw [h.occupied hr]

theorem marked_iff : Marked bs disk' z ↔ Marked bs disk z := by
  unfold Marked
  rw [h.inRange]
  exact and_congr_right fun hr => by rw [h.occupied hr]

end SameMap

theorem FreeAhead.congr (h : FreeAhead bs fs k) (hm : SameMap bs fs.disk disk') :
    FreeAhead bs (fs.withDisk disk') k := by
  have hstart : searchStart (fs.withDisk disk') = searchStart fs := by
    simp only [searchStart, Fs.withDisk, hm.super]
  obtain ⟨hfirst, S, hcard, hS⟩ := h
  refine ⟨?_, S, hcard, fun z hz => ?_⟩
  · rw [hstart, Fs.withDisk_disk, hm.super]
    exact hfirst
  · rw [hstart]
    exact ⟨hm.free_iff.mpr (hS z hz).1, (hS z hz).2⟩

/-- The search ends at the first of them, and the others stay. -/
theorem FreeAhead.found (h : FreeAhead bs fs (k + 1)) (hl : ZoneLayout bs fs.disk) :
    ∃ z, getAvailableZone bs fs
        = some ({ fs with disk := setZoneToZero bs fs.disk z, zoneCursor := z }, z) ∧
      FreeZone bs fs.disk z ∧
      ∀ fs' : Fs, Taken bs fs.disk fs'.disk z → fs'.zoneCursor = z → FreeAhead bs fs' k := by
  obtain ⟨hfirst, S, hcard, hS⟩ := h
  obtain ⟨y, hy⟩ : S.Nonempty := Finset.card_pos.mp (Nat.lt_of_lt_of_le k.succ_pos hcard)
  have hahead (w : Word) (hw : w ∈ S) := availableZoneFrom_ahead rounds hfirst (hS w hw).2
    (hS w hw).1.1 (hS w hw).1.2 (by have := w.isLt; unfold rounds; omega)
  obtain ⟨z, hfound, -, -, -⟩ := hahead y hy
  have hget := getAvailableZone_of hfound
  obtain ⟨hr, hfree, -⟩ := getAvailableZone_some hl hget
  refine ⟨z, hget, ⟨hr, hfree⟩, fun fs' ht hcursor => ?_⟩
  have hsuper := ht.super hl
  have hsearch : searchStart fs' = z := by
    rw [searchStart, hcursor, if_neg (hl.ne_zero hr)]
  refine ⟨?_, S.erase z, ?_, fun w hw => ?_⟩
  · rw [hsuper, hsearch]
    exact (inRange_iff.mp hr).1
  · have := Finset.pred_card_le_card_erase (s := S) (a := z)
    omega
  · obtain ⟨hne, hw⟩ := Finset.mem_erase.mp hw
    have hrange : isZoneInRange fs'.disk w = true := by
      rw [isZoneInRange, hsuper]
      exact (hS w hw).1.1
    refine ⟨⟨hrange, ?_⟩, ?_⟩
    · by_contra hocc
      rcases (ht.marked_iff hl w).mp ⟨hrange, by simpa using hocc⟩ with heq | hold
      · exact hne heq
      · rw [Marked, (hS w hw).1.2] at hold
        cases hold.2
    · obtain ⟨z', hfound', -, hle, -⟩ := hahead w hw
      rw [hfound] at hfound'
      cases hfound'
      rw [hsearch]
      exact hle

/-- A pointer block is taken. -/
theorem FreeAhead.freshBlock (h : FreeAhead bs fs (k + 1)) (hl : ZoneLayout bs fs.disk) :
    ∃ fs' z, freshBlock bs fs = .ok (fs', z) ∧ FreeAhead bs fs' k := by
  obtain ⟨z, hget, -, hrest⟩ := h.found hl
  have hfresh : Minix3.freshBlock bs fs = .ok ({ fs with
      disk := setZoneToZero bs (setZoneOccupied bs (setZoneToZero bs fs.disk z) z) z
      zoneCursor := z }, z) := by
    simp only [Minix3.freshBlock, hget]
  exact ⟨_, z, hfresh, hrest _ (freshBlock_taken hl hfresh).1 rfl⟩

end Ahead

/-! ## The next zone of a file -/

section Next

variable {bs i k s : ℕ} {W : Set Word} {disk₀ : Mem} {inode₀ inode : Inode} {fs fs₁ fs₂ : Fs}
  {t nz nz₂ : Word}

/-- The pointer blocks that a file needs for index `i` and for none before. -/
def blockCost (bs i : ℕ) : ℕ :=
  if i = blockStart bs 1 then 2 else if 7 ≤ i ∧ (i - 7) % ppz bs = 0 then 1 else 0

/-- `minix3_set_zone_to` has made `t` the zone of index `i` and left the other zones of the file,
with `k` free zones ahead. -/
structure SetsNext (bs : ℕ) (W : Set Word) (disk₀ : Mem) (inode₀ : Inode) (fs : Fs) (inode : Inode)
    (i : ℕ) (t : Word) (k : ℕ) (w : Walk) : Prop where
  walk : zoneWalker bs fs inode i (some t) = some (w, some t)
  grown : Grown bs W disk₀ inode₀ w.fs.disk w.inode
  here : fileZone bs w.fs.disk w.inode i = t
  others : ∀ j, (Node.data j).In bs → j ≠ i →
    fileZone bs w.fs.disk w.inode j = fileZone bs fs.disk inode j
  kept : ∀ x, InZone bs t x → w.fs.disk x = fs.disk x
  free : FreeAhead bs w.fs k
  cursor : w.fs.inodeCursor = fs.inodeCursor
  rest : w.inode = { inode with zones := w.inode.zones }

/-- A file without zones from index `i` on. -/
def EndsAt (bs : ℕ) (disk : Mem) (inode : Inode) (i : ℕ) : Prop :=
  ∀ j, (Node.data j).In bs → i ≤ j → fileZone bs disk inode j = 0

/-- Nothing lies below the places that the set renews. -/
theorem SetsBelow.others {q : Node} {w : Walk} (h : SetsBelow bs fs inode i t q)
    (hwalk : zoneWalker bs fs inode i (some t) = some (w, some t))
    (hend : EndsAt bs fs.disk inode i)
    (hq : ∀ j, (fileShape bs).Under q (.data j) → i ≤ j) :
    fileZone bs w.fs.disk w.inode i = t ∧ ∀ j, (Node.data j).In bs → j ≠ i →
      fileZone bs w.fs.disk w.inode j = fileZone bs fs.disk inode j := by
  obtain ⟨w', hwalk', hreset⟩ := h
  rw [hwalk] at hwalk'
  obtain ⟨rfl, -⟩ := Prod.mk.inj (Option.some.inj hwalk')
  exact ⟨hreset.here, hreset.keeps_iff.mpr fun j hj hu _ => hend j hj (hq j hu)⟩

/-- The zone is stored in a slot of a pointer block. -/
theorem Grown.store {b : ℕ} {disk : Mem} (g : Grown bs W disk₀ inode₀ disk inode)
    (hl : ZoneLayout bs disk₀) (hf : Fresh bs disk₀ disk inode t) (hb : (Node.block b).In bs)
    (hs : s < ppz bs) (hz : nodeZone bs disk inode (.block b) ≠ 0)
    (hW : nodeZone bs disk inode (.block b) ∈ W ∪ {z | ¬ Marked bs disk₀ z}) :
    Grown bs W disk₀ inode₀
      (store32 disk (baddr bs (nodeZone bs disk inode (.block b)) + 4 * s) t) inode := by
  have hl₁ := g.writes.layout hl
  have hnew := renews_slot (v := t) (ppz_pos hl) g.distinct (data_in hb hs) (place_data b hs) hz
    (Or.inr (leaf_data bs (blockStart bs b + s)))
  exact g.renew hl hf hnew (store_writes hl₁ (g.marked _ hb hz).1 hs)
    (Set.singleton_subset_iff.mpr hW)

theorem Fresh.ne_zero {disk : Mem} {z : Word} (hf : Fresh bs disk₀ disk inode z)
    (hl : ZoneLayout bs disk) : z ≠ 0 := hl.ne_zero hf.marked.1

theorem Taken.ne {disk disk₁ : Mem} (ht : Taken bs disk disk₁ nz) (hm : Marked bs disk t) :
    t ≠ nz := by
  rintro rfl
  exact ht.not_marked hm

theorem not_leaf {n q : Node} (h : (fileShape bs).place n = .slot q s) : ¬ Leaf bs q :=
  fun hleaf => hleaf n s h

theorem store_map (s : ℕ) (t : Word) {disk : Mem} {z : Word} (hl : ZoneLayout bs disk)
    (hz : isZoneInRange disk z = true) :
    SameMap bs disk (store32 disk (baddr bs z + 4 * s) t) := .of_low hl fun x hx =>
  blit_outside (Or.inl (by
    have := hl.bitmap
    have := ZoneLayout.dataStart_le bs hz
    omega))

theorem Extends.kept {disk disk' : Mem} (he : Extends bs W disk disk') (hm : Marked bs disk t)
    (ht : t ∉ W) : ∀ x, InZone bs t x → disk' x = disk x := he.zones t hm ht

theorem store_kept (v : Word) {disk : Mem} {z : Word} (hl : ZoneLayout bs disk)
    (hz : isZoneInRange disk z = true) (hs : s < ppz bs) (hm : Marked bs disk t) (hne : t ≠ z) :
    ∀ x, InZone bs t x → store32 disk (baddr bs z + 4 * s) v x = disk x :=
  (store_writes hl hz hs).kept hm hne

variable (hl : ZoneLayout bs disk₀) (g : Grown bs W disk₀ inode₀ fs.disk inode)
  (hf : Fresh bs disk₀ fs.disk inode t) (hend : EndsAt bs fs.disk inode i)

include hl g hf hend

theorem next_direct (h7 : i < 7) (hfree : FreeAhead bs fs k) :
    ∃ w, SetsNext bs W disk₀ inode₀ fs inode i t k w := by
  have hppz := ppz_pos hl
  obtain ⟨r, hr⟩ := setZone_direct bs fs inode t h7
  have hplace : (Node.data i).place bs = .root (Fin.ofNat 10 i) := if_pos h7
  have hnew : Renews bs fs.disk inode fs.disk (inode.setZone (Fin.ofNat 10 i) t) (.data i) t :=
    renews_root hppz hplace (Or.inr (leaf_data bs i))
  obtain ⟨hhere, hothers⟩ := (sets_direct fs inode t hppz h7).others hr hend fun j hj =>
    (Node.data.inj (under_data hj)).ge
  exact ⟨_, hr, g.renew hl hf hnew (.refl bs fs.disk) (Set.empty_subset _), hhere, hothers,
    fun _ _ => rfl, hfree, rfl, rfl⟩

variable (hW : blockZones bs fs.disk inode ⊆ W ∪ {z | ¬ Marked bs disk₀ z})

include hW

theorem next_indirect (hpos : 0 < s) (hs : s < ppz bs) (hi : i = blockStart bs 0 + s)
    (hz : inode.zones MX3_IDZONE ≠ 0) (hfree : FreeAhead bs fs k) :
    ∃ w, SetsNext bs W disk₀ inode₀ fs inode i t k w := by
  subst hi
  have hl₁ := g.writes.layout hl
  have hppz := ppz_pos hl
  have hin := block_in hppz (Nat.zero_le (ppz bs))
  obtain ⟨r, hr⟩ := setZone_indirect t (show blockStart bs 0 < blockStart bs 0 + s by omega)
    (by rw [blockStart_succ]; omega) hz
  have haddr : baddr32 bs (inode.zones MX3_IDZONE) = baddr bs (inode.zones MX3_IDZONE) :=
    node_baddr32 hl₁ g.marked (n := .block 0) hin hz
  rw [Nat.add_sub_cancel_left, haddr] at hr
  have hbelow := sets_indirect hl₁ g.distinct g.marked t hpos hs hz
  obtain ⟨hhere, hothers⟩ := hbelow.others hr hend fun j hj => (Node.data.inj (under_data hj)).ge
  have hkept := store_kept t hl₁ (g.marked _ hin hz).1 hs hf.marked (hf.apart _ hin).symm
  exact ⟨_, hr, g.store hl hf hin hs hz (hW ⟨_, hin, not_leaf (place_data 0 hppz), rfl⟩), hhere,
    hothers, hkept, hfree.congr (store_map s t hl₁ (g.marked _ hin hz).1), rfl, rfl⟩

theorem next_doubly {m : ℕ} (hm : m < ppz bs) (hpos : 0 < s) (hs : s < ppz bs)
    (hi : i = blockStart bs (1 + m) + s) (hz : pointerBlock bs fs.disk inode (1 + m) ≠ 0)
    (hfree : FreeAhead bs fs k) : ∃ w, SetsNext bs W disk₀ inode₀ fs inode i t k w := by
  subst hi
  have hl₁ := g.writes.layout hl
  have hppz := ppz_pos hl
  have hin : (Node.block (1 + m)).In bs := block_in hppz (by omega)
  have hwalked : walkedBlock bs fs.disk inode (1 + m) = pointerBlock bs fs.disk inode (1 + m) :=
    walkedBlock_eq (addressable hl₁ g.marked) (by omega)
  have haddr : baddr32 bs (pointerBlock bs fs.disk inode (1 + m)) =
      baddr bs (pointerBlock bs fs.disk inode (1 + m)) :=
    node_baddr32 hl₁ g.marked (n := .block (1 + m)) hin hz
  have hafter : blockStart bs (1 + m) < blockStart bs (1 + m) + s := by omega
  have hblock : walkedBlock bs fs.disk inode (1 + m) ≠ 0 := hwalked ▸ hz
  obtain ⟨r, hr⟩ := setZone_doubly t hm hafter (by rw [blockStart_succ]; omega)
    (doubly_ne_zero hm hz) hblock
  rw [Nat.add_sub_cancel_left, hwalked, haddr] at hr
  have hbelow := sets_doubly hl₁ g.distinct g.marked t hm hpos hs hz
  obtain ⟨hhere, hothers⟩ := hbelow.others hr hend fun j hj => (Node.data.inj (under_data hj)).ge
  have hkept := store_kept t hl₁ (g.marked _ hin hz).1 hs hf.marked (hf.apart _ hin).symm
  exact ⟨_, hr, g.store hl hf hin hs hz (hW ⟨_, hin, not_leaf (place_data (1 + m) hppz), rfl⟩),
    hhere, hothers, hkept, hfree.congr (store_map s t hl₁ (g.marked _ hin hz).1), rfl, rfl⟩

omit hW in
theorem next_indirect_fresh (hi : i = blockStart bs 0) (hfree : FreeAhead bs fs (k + 1)) :
    ∃ w, SetsNext bs W disk₀ inode₀ fs inode i t k w := by
  subst hi
  have hl₁ := g.writes.layout hl
  have hppz := ppz_pos hl
  have hin := block_in hppz (Nat.zero_le (ppz bs))
  obtain ⟨fs₁, nz, hfresh, hfree⟩ := hfree.freshBlock hl₁
  obtain ⟨ht, -, hcursor⟩ := freshBlock_taken hl₁ hfresh
  have hl₂ := (ht.extends hl₁).layout hl₁
  have hnz := g.fresh hl ht
  have hroot : Renews bs fs₁.disk inode fs₁.disk (inode.setZone MX3_IDZONE nz) (.block 0) nz :=
    renews_root hppz rfl (Or.inl ht.empty)
  have g₂ := (g.take hl ht).renew hl hnz hroot (.refl bs fs₁.disk) (Set.empty_subset _)
  have hf₂ := (hf.take hl₁ g.marked ht).renew hroot (fun _ h => h) (hf.ne_zero hl₁)
    (ht.ne hf.marked)
  obtain ⟨r, hr⟩ := setZone_indirect_fresh t hppz rfl hfresh (hnz.ne_zero hl₂)
  rw [baddr32_eq (hl₁.baddr_lt ht.range)] at hr
  have hbelow := sets_indirect_fresh hl₁ g.distinct g.marked t hfresh
  obtain ⟨hhere, hothers⟩ := hbelow.others hr hend fun j hj => ((under_block hppz).mp hj).1
  have hstore := g₂.store hl hf₂ hin hppz (by rw [hroot.here]; exact hnz.ne_zero hl₂)
    (Or.inr (by rw [hroot.here]; exact hnz.new))
  rw [hroot.here, Nat.mul_zero, Nat.add_zero] at hstore
  have hkept := (ht.extends hl₁).kept hf.marked fun h => h
  have hkept₂ := store_kept t hl₂ hnz.marked.1 hppz hf₂.marked (ht.ne hf.marked)
  rw [Nat.mul_zero, Nat.add_zero] at hkept₂
  exact ⟨_, hr, hstore, hhere, hothers, fun x hx => (hkept₂ x hx).trans (hkept x hx),
    hfree.congr (store_map 0 t hl₂ hnz.marked.1), hcursor, rfl⟩

theorem next_doubly_fresh {m : ℕ} (hm : m < ppz bs) (hpos : 0 < m) (hi : i = blockStart bs (1 + m))
    (hz : inode.zones MX3_IIDZONE ≠ 0) (hfree : FreeAhead bs fs (k + 1)) :
    ∃ w, SetsNext bs W disk₀ inode₀ fs inode i t k w := by
  subst hi
  have hl₁ := g.writes.layout hl
  have hppz := ppz_pos hl
  have hin : (Node.block (1 + m)).In bs := block_in hppz (by omega)
  obtain ⟨fs₁, nz, hfresh, hfree⟩ := hfree.freshBlock hl₁
  obtain ⟨ht, -, hcursor⟩ := freshBlock_taken hl₁ hfresh
  have hl₂ := (ht.extends hl₁).layout hl₁
  have g₁ := g.take hl ht
  have hnz := g.fresh hl ht
  have hdoubly : Marked bs fs.disk (inode.zones MX3_IIDZONE) := g.marked .doubly trivial hz
  have hdoubly₁ : Marked bs fs₁.disk (inode.zones MX3_IIDZONE) := g₁.marked .doubly trivial hz
  -- the slot of the doubly indirect block
  have hslot : Renews bs fs₁.disk inode
      (store32 fs₁.disk (baddr bs (inode.zones MX3_IIDZONE) + 4 * m) nz) inode (.block (1 + m))
      nz :=
    renews_slot hppz g₁.distinct hin (place_block m hm) hz
      (Or.inl ⟨ht.empty, (hnz.apart .doubly trivial).symm⟩)
  have hwrite := store_writes (v := nz) hl₂ hdoubly₁.1 hm
  have hmem : inode.zones MX3_IIDZONE ∈ W ∪ {z | ¬ Marked bs disk₀ z} :=
    hW ⟨.doubly, trivial, not_leaf (place_block m hm), rfl⟩
  have g₂ := g₁.renew hl hnz hslot hwrite (Set.singleton_subset_iff.mpr hmem)
  have hf₂ := (hf.take hl₁ g.marked ht).renew hslot hwrite.marks (hf.ne_zero hl₁) (ht.ne hf.marked)
  have hnz₂ := hwrite.marks nz hnz.marked
  have hmap := store_map m nz hl₂ hdoubly₁.1
  obtain ⟨r, hr⟩ := setZone_doubly_fresh t hm hpos rfl hz hfresh (hnz.ne_zero hl₂)
  rw [baddr32_eq (hl₁.baddr_lt ht.range), baddr32_eq (hl₁.baddr_lt hdoubly.1),
    blit_window_taken ht hl₁ hdoubly hm] at hr
  have hbelow := sets_doubly_fresh hl₁ g.distinct g.marked t hm hpos hz hfresh
  obtain ⟨hhere, hothers⟩ := hbelow.others hr hend fun j hj => ((under_block hppz).mp hj).1
  have hstore := g₂.store hl hf₂ hin hppz (by rw [hslot.here]; exact hnz.ne_zero hl₂)
    (Or.inr (by rw [hslot.here]; exact hnz.new))
  rw [hslot.here, Nat.mul_zero, Nat.add_zero] at hstore
  have hl₃ := hwrite.layout hl₂
  have hkept := (ht.extends hl₁).kept hf.marked fun h => h
  have hf₁ := hf.take hl₁ g.marked ht
  have hkept₂ := hwrite.kept hf₁.marked (hf₁.apart .doubly trivial).symm
  have hkept₃ := store_kept t hl₃ hnz₂.1 hppz hf₂.marked (ht.ne hf.marked)
  rw [Nat.mul_zero, Nat.add_zero] at hkept₃
  exact ⟨_, hr, hstore, hhere, hothers,
    fun x hx => (hkept₃ x hx).trans ((hkept₂ x hx).trans (hkept x hx)),
    (hfree.congr hmap).congr (store_map 0 t hl₃ hnz₂.1), hcursor, rfl⟩

omit hW in
theorem next_doubly_first (hi : i = blockStart bs 1) (hfree : FreeAhead bs fs (k + 2)) :
    ∃ w, SetsNext bs W disk₀ inode₀ fs inode i t k w := by
  subst hi
  have hl₁ := g.writes.layout hl
  have hppz := ppz_pos hl
  have hin : (Node.block 1).In bs := block_in hppz hppz
  obtain ⟨fs₁, nz, hfresh, hfree⟩ := hfree.freshBlock hl₁
  obtain ⟨ht, -, hcursor⟩ := freshBlock_taken hl₁ hfresh
  have hl₂ := (ht.extends hl₁).layout hl₁
  obtain ⟨fs₂, nz₂, hfresh₂, hfree⟩ := hfree.freshBlock hl₂
  obtain ⟨ht₂, -, hcursor₂⟩ := freshBlock_taken hl₂ hfresh₂
  have hl₃ := (ht₂.extends hl₂).layout hl₂
  have hnz := g.fresh hl ht
  -- the root, before the second block is taken
  have hroot : Renews bs fs₁.disk inode fs₁.disk (inode.setZone MX3_IIDZONE nz) .doubly nz :=
    renews_root hppz rfl (Or.inl ht.empty)
  have g₁ := (g.take hl ht).renew hl hnz hroot (.refl bs fs₁.disk) (Set.empty_subset _)
  have hf₁ := (hf.take hl₁ g.marked ht).renew hroot (fun _ h => h) (hf.ne_zero hl₁)
    (ht.ne hf.marked)
  have g₂ := g₁.take hl ht₂
  have hnz₂ := g₁.fresh hl ht₂
  have hf₂ := hf₁.take hl₂ g₁.marked ht₂
  have hdoubly : nodeZone bs fs₂.disk (inode.setZone MX3_IIDZONE nz) .doubly = nz :=
    Inode.setZone_same inode MX3_IIDZONE nz
  have hdoubly₂ : Marked bs fs₂.disk nz := (ht₂.marked_iff hl₂ nz).mpr (Or.inr hnz.marked)
  have hslot := renews_slot (v := nz₂) hppz g₂.distinct hin (place_block 0 hppz)
    (by rw [hdoubly]; exact hnz.ne_zero hl₂)
    (Or.inl ⟨ht₂.empty, (hnz₂.apart .doubly trivial).symm⟩)
  rw [hdoubly] at hslot
  have hwrite := store_writes (v := nz₂) hl₃ hdoubly₂.1 hppz
  have g₃ := g₂.renew hl hnz₂ hslot hwrite (Set.singleton_subset_iff.mpr (Or.inr hnz.new))
  have hf₃ := hf₂.renew hslot hwrite.marks (hf.ne_zero hl₁) (ht₂.ne hf₁.marked)
  have hmarked := hwrite.marks nz₂ hnz₂.marked
  have hmap := store_map 0 nz₂ hl₃ hdoubly₂.1
  obtain ⟨r, hr⟩ := setZone_doubly_first t hppz rfl hfresh (hnz.ne_zero hl₂) hfresh₂
    (hnz₂.ne_zero hl₃)
  have hblit := blit_window_taken (t := nz₂) ht₂ hl₂ hnz.marked hppz
  rw [Nat.mul_zero] at hblit
  rw [baddr32_eq (hl₂.baddr_lt ht₂.range), baddr32_eq (hl₁.baddr_lt ht.range), hblit] at hr
  have hbelow := sets_doubly_first hl₁ g.distinct g.marked t hfresh hfresh₂
  obtain ⟨hhere, hothers⟩ := hbelow.others hr hend fun j hj => ((under_doubly hppz).mp hj).1
  have hstore := g₃.store hl hf₃ hin hppz (by rw [hslot.here]; exact hnz₂.ne_zero hl₃)
    (Or.inr (by rw [hslot.here]; exact hnz₂.new))
  rw [hslot.here, Nat.mul_zero, Nat.add_zero] at hstore
  have hl₄ := hwrite.layout hl₃
  have hmark₁ := (ht.extends hl₁).marks t hf.marked
  have hmark₂ := (ht₂.extends hl₂).marks t hmark₁
  have hkept := (ht.extends hl₁).kept hf.marked fun h => h
  have hkept₂ := (ht₂.extends hl₂).kept hmark₁ fun h => h
  have hkept₃ := hwrite.kept hmark₂ (ht.ne hf.marked)
  have hkept₄ := store_kept t hl₄ hmarked.1 hppz hf₃.marked (ht₂.ne hmark₁)
  rw [Nat.mul_zero, Nat.add_zero] at hkept₄
  exact ⟨_, hr, hstore, hhere, hothers, fun x hx => (hkept₄ x hx).trans ((hkept₃ x hx).trans
      ((hkept₂ x hx).trans (hkept x hx))),
    (hfree.congr hmap).congr (store_map 0 t hl₄ hmarked.1), hcursor₂.trans hcursor, rfl⟩

omit hl g hf hend hW in
theorem blockCost_start (b : ℕ) (hppz : 0 < ppz bs) :
    blockCost bs (blockStart bs b) = if b = 1 then 2 else 1 := by
  have hslot : 7 ≤ blockStart bs b ∧ (blockStart bs b - 7) % ppz bs = 0 := by
    simp [blockStart]
  unfold blockCost
  rw [if_pos hslot]
  by_cases hb : b = 1
  · rw [if_pos hb, if_pos (congrArg _ hb)]
  · rw [if_neg hb, if_neg fun h => hb (blockStart_injective hppz h)]

/-- The next index of a file without gaps, in front of the triply indirect zones. -/
theorem sets_next (hi : i < blockStart bs (1 + ppz bs))
    (hbefore : ∀ j < i, fileZone bs fs.disk inode j ≠ 0)
    (hfree : FreeAhead bs fs (k + blockCost bs i)) :
    ∃ w, SetsNext bs W disk₀ inode₀ fs inode i t k w := by
  have hppz := ppz_pos hl
  have hfewer : FreeAhead bs fs k := hfree.mono (Nat.le_add_right k _)
  by_cases h7 : i < 7
  · exact next_direct hl g hf hend h7 hfewer
  obtain ⟨b, s, hb, hs, rfl⟩ := exists_index hppz (not_lt.mp h7) hi
  rcases Nat.eq_zero_or_pos s with rfl | hpos
  · rw [Nat.add_zero] at *
    rw [blockCost_start b hppz] at hfree
    rcases Nat.eq_zero_or_pos b with rfl | hbpos
    · exact next_indirect_fresh hl g hf hend rfl hfree
    obtain ⟨m, rfl⟩ := Nat.exists_eq_add_of_le hbpos
    rcases Nat.eq_zero_or_pos m with rfl | hm
    · exact next_doubly_first hl g hf hend rfl hfree
    · rw [if_neg (by omega)] at hfree
      exact next_doubly_fresh hl g hf hend hW (by omega) hm rfl
        (doubly_before hm (by omega) hbefore)
        hfree
  · have hz := block_before hpos hs hbefore
    rcases Nat.eq_zero_or_pos b with rfl | hbpos
    · exact next_indirect hl g hf hend hW hpos hs rfl hz hfewer
    · obtain ⟨m, rfl⟩ := Nat.exists_eq_add_of_le hbpos
      exact next_doubly hl g hf hend hW (by omega) hpos hs rfl hz hfewer

end Next

end Minix3
