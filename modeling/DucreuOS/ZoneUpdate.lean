import DucreuOS.ZoneClear
import DucreuOS.ZoneSearch
import DucreuOS.ZoneSetter

/-! # Setting one zone of a file

A set of file index `i` reaches its slot, but where `i` is the first index below a pointer block
the block is replaced by an empty one, whether it exists or not. The other zones below it are lost. -/
namespace Minix3

open ByteMemory PlacedTree

/-! ## What becomes of the other zones -/

section Resets

variable {bs : ℕ} {disk disk₁ disk₂ : Mem} {inode inode₁ inode₂ : Inode} {q p : Node} {i : ℕ}
  {t v : Word}

/-- File zone `i`, which lies below `q`, is `t`; the others below `q` are gone. -/
structure Resets (bs : ℕ) (disk : Mem) (inode : Inode) (disk' : Mem) (inode' : Inode) (q : Node)
    (i : ℕ) (t : Word) : Prop where
  here : fileZone bs disk' inode' i = t
  below : ∀ j, (Node.data j).In bs → (fileShape bs).Under q (.data j) → j ≠ i →
    fileZone bs disk' inode' j = 0
  elsewhere : ∀ j, (Node.data j).In bs → ¬ (fileShape bs).Under q (.data j) →
    fileZone bs disk' inode' j = fileZone bs disk inode j

theorem under_data {n : Node} (h : (fileShape bs).Under (.data i) n) : n = .data i := by
  have hleaf : ∀ m s, (fileShape bs).place m ≠ .slot (.data i) s := leaf_data bs i
  exact h.leaf hleaf

/-- In place. -/
theorem Renews.resets (h : Renews bs disk inode disk₁ inode₁ (.data i) t) :
    Resets bs disk inode disk₁ inode₁ (.data i) i t where
  here := h.here
  below _ _ hu hne := absurd (Node.data.inj (under_data hu)) hne
  elsewhere _ hj hu := h.elsewhere _ hj hu

/-- First a block above the place is renewed. -/
theorem Renews.resets_below (h : Renews bs disk inode disk₁ inode₁ q v)
    (h' : Resets bs disk₁ inode₁ disk₂ inode₂ p i t) (hp : (fileShape bs).Under q p)
    (hq : ∀ j, Node.data j ≠ q) : Resets bs disk inode disk₂ inode₂ q i t where
  here := h'.here
  below j hj hu hne := by
    by_cases hup : (fileShape bs).Under p (.data j)
    · exact h'.below j hj hup hne
    · rw [h'.elsewhere j hj hup]
      exact h.below _ hj hu (hq j)
  elsewhere j hj hu := by
    rw [h'.elsewhere j hj fun hup => hu (hp.trans hup)]
    exact h.elsewhere _ hj hu

/-- A zone has been taken before. -/
theorem Resets.after_taken {zone : Word} (h : Resets bs disk₁ inode disk₂ inode₂ q i t)
    (ht : Taken bs disk disk₁ zone) (hl : ZoneLayout bs disk) (hm : MarkedZones bs disk inode) :
    Resets bs disk inode disk₂ inode₂ q i t where
  here := h.here
  below := h.below
  elsewhere j hj hu := by
    rw [h.elsewhere j hj hu]
    exact ht.nodeZone_eq hl hm _ hj

/-- The other zones stay if none of them lies below `q`. -/
theorem Resets.keeps_iff (h : Resets bs disk inode disk₁ inode₁ q i t) :
    (∀ j, (Node.data j).In bs → j ≠ i → fileZone bs disk₁ inode₁ j = fileZone bs disk inode j) ↔
      ∀ j, (Node.data j).In bs → (fileShape bs).Under q (.data j) → j ≠ i →
        fileZone bs disk inode j = 0 := by
  constructor
  · intro hkeeps j hj hu hne
    rw [← hkeeps j hj hne, h.below j hj hu hne]
  · intro hnone j hj hne
    by_cases hu : (fileShape bs).Under q (.data j)
    · rw [h.below j hj hu hne, hnone j hj hu hne]
    · exact h.elsewhere j hj hu

end Resets

/-! ## Places below a block -/

section Below

variable {bs b j s : ℕ}

theorem place_data (b : ℕ) (hs : s < ppz bs) :
    (fileShape bs).place (.data (blockStart bs b + s)) = .slot (.block b) s := by
  obtain ⟨hdiv, hmod⟩ := blockStart_div b hs
  have h7 : ¬ blockStart bs b + s < 7 := by
    simp only [blockStart]
    omega
  simp only [fileShape, Node.place, if_neg h7, hdiv, hmod]

theorem place_block (k : ℕ) (hk : k < ppz bs) :
    (fileShape bs).place (.block (1 + k)) = .slot .doubly k := by
  simp only [fileShape, Node.place]
  rw [if_neg (by omega), if_pos (by omega), Nat.add_sub_cancel_left]

theorem under_slot {q n p : Node} (hp : (fileShape bs).place n = .slot p s) (hne : n ≠ q) :
    (fileShape bs).Under q n ↔ (fileShape bs).Under q p := by
  constructor
  · intro h
    cases h with
    | refl => exact absurd rfl hne
    | slot hp' h =>
      rw [hp] at hp'
      cases hp'
      exact h
  · exact fun h => .slot hp h

theorem not_under_root {q n : Node} {r : Fin 10} (hp : (fileShape bs).place n = .root r)
    (hne : n ≠ q) : ¬ (fileShape bs).Under q n := by
  intro h
  cases h with
  | refl => exact hne rfl
  | slot hp' _ =>
    rw [hp] at hp'
    cases hp'

theorem blockStart_le_iff (hppz : 0 < ppz bs) (h7 : 7 ≤ j) :
    blockStart bs b ≤ j ↔ b ≤ (j - 7) / ppz bs := by
  rw [Nat.le_div_iff_mul_le hppz, blockStart]
  omega

theorem under_block_block {c : ℕ} : (fileShape bs).Under (.block b) (.block c) ↔ c = b := by
  constructor
  · intro h
    cases h with
    | refl => rfl
    | @slot _ p _ hp h =>
      have hle : (fileShape bs).rank (.block c) ≤ (fileShape bs).rank p := h.rank_le
      exact absurd ((fileShape bs).rank_lt _ _ _ hp) (not_lt.mpr hle)
  · rintro rfl
    exact .refl

theorem under_doubly_block {c : ℕ} :
    (fileShape bs).Under .doubly (.block c) ↔ 1 ≤ c ∧ c ≤ ppz bs := by
  constructor
  · intro h
    by_contra hout
    cases h with
    | @slot _ p s hp h =>
      have hplace : (Node.block c).place bs = .slot p s := hp
      rcases place_slot hplace with ⟨_, _, hc, _⟩ | ⟨k, hk, hc, _⟩ | ⟨m, -, rfl, -⟩ | ⟨_, hc, _⟩
      · cases hc
      · cases hc
        omega
      · -- above it lie a slot of the triply indirect block and that block
        rw [under_slot (p := .triply) rfl (by simp)] at h
        exact not_under_root (r := MX3_IIIDZONE) rfl (by simp) h
      · cases hc
  · rintro ⟨hpos, hle⟩
    obtain ⟨k, rfl⟩ := Nat.exists_eq_add_of_le hpos
    exact .slot (place_block k (by omega)) .refl

/-- The file zones below a block are those of its range. -/
theorem under_data_iff {q : Node} (hq : Node.data j ≠ q) :
    (fileShape bs).Under q (.data j) ↔
      7 ≤ j ∧ (fileShape bs).Under q (.block ((j - 7) / ppz bs)) := by
  by_cases h7 : 7 ≤ j
  · have hplace : (fileShape bs).place (.data j) =
        .slot (.block ((j - 7) / ppz bs)) ((j - 7) % ppz bs) :=
      if_neg (by omega)
    rw [under_slot hplace hq]
    exact (and_iff_right h7).symm
  · have hplace : (fileShape bs).place (.data j) = .root (Fin.ofNat 10 j) := if_pos (by omega)
    exact ⟨fun h => absurd h (not_under_root hplace hq), fun h => absurd h.1 h7⟩

theorem under_block (hppz : 0 < ppz bs) : (fileShape bs).Under (.block b) (.data j) ↔
    blockStart bs b ≤ j ∧ j < blockStart bs (b + 1) := by
  have hseven : 7 ≤ blockStart bs b := Nat.le_add_right 7 _
  rw [under_data_iff (by simp), under_block_block]
  constructor
  · rintro ⟨h7, rfl⟩
    rw [← not_le, blockStart_le_iff hppz h7, blockStart_le_iff hppz h7]
    omega
  · rintro ⟨hle, hlt⟩
    have h7 := hseven.trans hle
    rw [← not_le, blockStart_le_iff hppz h7] at hlt
    rw [blockStart_le_iff hppz h7] at hle
    omega

/-- Below the doubly indirect pointer lie its blocks. -/
theorem under_doubly (hppz : 0 < ppz bs) : (fileShape bs).Under .doubly (.data j) ↔
    blockStart bs 1 ≤ j ∧ j < blockStart bs (1 + ppz bs) := by
  have hseven : 7 ≤ blockStart bs 1 := Nat.le_add_right 7 _
  rw [under_data_iff (by simp), under_doubly_block]
  constructor
  · rintro ⟨h7, hpos, hle⟩
    rw [← not_le, blockStart_le_iff hppz h7, blockStart_le_iff hppz h7]
    omega
  · rintro ⟨hle, hlt⟩
    have h7 := hseven.trans hle
    rw [← not_le, blockStart_le_iff hppz h7] at hlt
    rw [blockStart_le_iff hppz h7] at hle
    omega

end Below

/-! ## The sets -/

section Sets

variable {bs : ℕ} {fs fs₁ fs₂ : Fs} {disk disk₁ : Mem} {inode inode₁ : Inode} {i k s : ℕ} {t nz nz₂ : Word}

/-- `minix3_set_zone_to` returns `t` and resets what lies below `q`. -/
def SetsBelow (bs : ℕ) (fs : Fs) (inode : Inode) (i : ℕ) (t : Word) (q : Node) : Prop :=
  ∃ w, zoneWalker bs fs inode i (some t) = some (w, some t) ∧
    Resets bs fs.disk inode w.fs.disk w.inode q i t

theorem node_baddr32 (hl : ZoneLayout bs disk) (hm : MarkedZones bs disk inode) {n : Node}
    (hn : n.In bs) (hz : nodeZone bs disk inode n ≠ 0) :
    baddr32 bs (nodeZone bs disk inode n) = baddr bs (nodeZone bs disk inode n) :=
  baddr32_eq (hl.baddr_lt (hm n hn hz).1)

/-- A new block is no block of the file. -/
theorem Taken.fresh (ht : Taken bs disk disk₁ nz) (hl : ZoneLayout bs disk)
    (hm : MarkedZones bs disk inode) {n : Node} (hn : n.In bs) : nodeZone bs disk₁ inode n ≠ nz := by
  rw [ht.nodeZone_eq hl hm n hn]
  intro he
  have hnz : nz ≠ 0 := hl.ne_zero ht.range
  exact ht.not_marked (he ▸ hm n hn (he.symm ▸ hnz))

theorem block_in (hppz : 0 < ppz bs) {b : ℕ} (hb : b ≤ ppz bs) : (Node.block b).In bs := by
  have hsq : 0 < ppz bs * ppz bs := Nat.mul_pos hppz hppz
  change b < blocks bs
  unfold blocks
  omega

theorem data_in (hb : (Node.block k).In bs) (hs : s < ppz bs) :
    (Node.data (blockStart bs k + s)).In bs := by
  have hnext : blockStart bs (k + 1) ≤ blockStart bs (blocks bs) := blockStart_mono bs hb
  rw [blockStart_succ] at hnext
  change blockStart bs k + s < blockStart bs (blocks bs)
  omega

/-- The store of a file zone in a pointer block of the tree. -/
theorem store_resets (hppz : 0 < ppz bs) (hd : DistinctZones bs disk inode)
    (hb : (Node.block k).In bs) (hs : s < ppz bs) (hz : nodeZone bs disk inode (.block k) ≠ 0) :
    Resets bs disk inode
      (store32 disk (baddr bs (nodeZone bs disk inode (.block k)) + 4 * s) t) inode
      (.data (blockStart bs k + s)) (blockStart bs k + s) t :=
  (renews_slot hppz hd (data_in hb hs) (place_data k hs) hz (Or.inr (leaf_data bs _))).resets

/-- A renewed block with its first zone set. -/
theorem Renews.store (hr : Renews bs disk inode disk₁ inode₁ (.block k) nz) (hppz : 0 < ppz bs)
    (hd : DistinctZones bs disk₁ inode₁) (hb : (Node.block k).In bs) (hnz : nz ≠ 0) :
    Resets bs disk inode (store32 disk₁ (baddr bs nz) t) inode₁ (.block k) (blockStart bs k) t := by
  have hstore := store_resets (t := t) hppz hd hb hppz (by rwa [hr.here])
  rw [hr.here, Nat.mul_zero, Nat.add_zero] at hstore
  exact hr.resets_below hstore (.slot (place_data k hppz) .refl) (by simp)

/-- The pointers that lead to a block of the doubly indirect range. -/
theorem doubly_ne_zero (hk : k < ppz bs) (hz : pointerBlock bs disk inode (1 + k) ≠ 0) :
    inode.zones MX3_IIDZONE ≠ 0 := by
  intro h
  apply hz
  simp only [pointerBlock, h]
  rw [if_neg (by omega), if_pos (by omega)]
  exact if_pos rfl

theorem addressable (hl : ZoneLayout bs disk) (hm : MarkedZones bs disk inode) :
    Addressable bs disk inode := by
  have hppz := ppz_pos hl
  have hlow {zone : Word} (h : zone ≠ 0 → isZoneInRange disk zone = true) :
      baddr bs zone < 2 ^ 32 := by
    by_cases hz : zone = 0
    · rw [hz, baddr]
      simp
    · exact hl.baddr_lt (h hz)
  exact ⟨hlow fun hz => (hm .doubly trivial hz).1,
    fun b hb => hlow fun hz => (hm (.block b) (block_in hppz hb) hz).1⟩

/-- The buffer of a marked block is still good after another zone has been taken. -/
theorem blit_window_taken {p : Word} (ht : Taken bs disk disk₁ nz) (hl : ZoneLayout bs disk)
    (hp : Marked bs disk p) (hs : s < ppz bs) :
    blit disk₁ (baddr bs p) bs (store32 (window disk (baddr bs p)) (4 * s) t) =
      store32 disk₁ (baddr bs p + 4 * s) t := by
  have hbuffer : ∀ o < bs, store32 (window disk (baddr bs p)) (4 * s) t o =
      store32 (window disk₁ (baddr bs p)) (4 * s) t o := by
    intro o ho
    have hbyte : disk₁ (baddr bs p + o) = disk (baddr bs p + o) :=
      (ht.extends hl).zones p hp (Set.notMem_empty p) _ ⟨Nat.le_add_right _ o, by omega⟩
    simp only [store32, blit, window, hbyte]
  rw [blit_congr hbuffer, blit_store_window hs]

theorem sets_direct (fs : Fs) (inode : Inode) (t : Word) (hppz : 0 < ppz bs) (h : i < 7) :
    SetsBelow bs fs inode i t (.data i) := by
  obtain ⟨r, hr⟩ := setZone_direct bs fs inode t h
  have hplace : (Node.data i).place bs = .root (Fin.ofNat 10 i) := if_pos h
  exact ⟨_, hr, (renews_root hppz hplace (Or.inr (leaf_data bs i))).resets⟩

variable (hl : ZoneLayout bs fs.disk) (hd : DistinctZones bs fs.disk inode)
  (hm : MarkedZones bs fs.disk inode)

include hl hd hm

theorem sets_indirect (t : Word) (hpos : 0 < s) (hs : s < ppz bs)
    (hz : inode.zones MX3_IDZONE ≠ 0) :
    SetsBelow bs fs inode (blockStart bs 0 + s) t (.data (blockStart bs 0 + s)) := by
  have hppz := ppz_pos hl
  have hin := block_in hppz (Nat.zero_le (ppz bs))
  obtain ⟨r, hr⟩ := setZone_indirect t (show blockStart bs 0 < blockStart bs 0 + s by omega)
    (by rw [blockStart_succ]; omega) hz
  have haddr : baddr32 bs (inode.zones MX3_IDZONE) = baddr bs (inode.zones MX3_IDZONE) :=
    node_baddr32 hl hm (n := .block 0) hin hz
  refine ⟨_, hr, ?_⟩
  rw [Nat.add_sub_cancel_left, haddr]
  exact store_resets hppz hd hin hs hz

theorem sets_doubly (t : Word) (hk : k < ppz bs) (hpos : 0 < s) (hs : s < ppz bs)
    (hz : pointerBlock bs fs.disk inode (1 + k) ≠ 0) :
    SetsBelow bs fs inode (blockStart bs (1 + k) + s) t (.data (blockStart bs (1 + k) + s)) := by
  have hppz := ppz_pos hl
  have hin : (Node.block (1 + k)).In bs := block_in hppz (by omega)
  have hwalked : walkedBlock bs fs.disk inode (1 + k) = pointerBlock bs fs.disk inode (1 + k) :=
    walkedBlock_eq (addressable hl hm) (by omega)
  have haddr : baddr32 bs (pointerBlock bs fs.disk inode (1 + k)) =
      baddr bs (pointerBlock bs fs.disk inode (1 + k)) :=
    node_baddr32 hl hm (n := .block (1 + k)) hin hz
  have hafter : blockStart bs (1 + k) < blockStart bs (1 + k) + s := by omega
  have hblock : walkedBlock bs fs.disk inode (1 + k) ≠ 0 := hwalked ▸ hz
  obtain ⟨r, hr⟩ := setZone_doubly t hk hafter (by rw [blockStart_succ]; omega)
    (doubly_ne_zero hk hz) hblock
  refine ⟨_, hr, ?_⟩
  rw [Nat.add_sub_cancel_left, hwalked, haddr]
  exact store_resets hppz hd hin hs hz

theorem sets_indirect_fresh (t : Word) (hfresh : freshBlock bs fs = .ok (fs₁, nz)) :
    SetsBelow bs fs inode (blockStart bs 0) t (.block 0) := by
  have hppz := ppz_pos hl
  have hin := block_in hppz (Nat.zero_le (ppz bs))
  obtain ⟨ht, -, -⟩ := freshBlock_taken hl hfresh
  have hnz := hl.ne_zero ht.range
  have hplace : (Node.block 0).place bs = .root MX3_IDZONE := rfl
  have hroot : Renews bs fs₁.disk inode fs₁.disk (inode.setZone MX3_IDZONE nz) (.block 0) nz :=
    renews_root hppz hplace (Or.inl ht.empty)
  have hdistinct := hroot.distinct (ht.distinct hl hm hd) fun _ n hn => ht.fresh hl hm hn
  obtain ⟨r, hr⟩ := setZone_indirect_fresh t hppz rfl hfresh hnz
  refine ⟨_, hr, ?_⟩
  rw [baddr32_eq (hl.baddr_lt ht.range)]
  exact (hroot.store hppz hdistinct hin hnz).after_taken ht hl hm

theorem sets_doubly_fresh (t : Word) (hk : k < ppz bs) (hpos : 0 < k)
    (hz : inode.zones MX3_IIDZONE ≠ 0) (hfresh : freshBlock bs fs = .ok (fs₁, nz)) :
    SetsBelow bs fs inode (blockStart bs (1 + k)) t (.block (1 + k)) := by
  have hppz := ppz_pos hl
  have hin : (Node.block (1 + k)).In bs := block_in hppz (by omega)
  obtain ⟨ht, -, -⟩ := freshBlock_taken hl hfresh
  have hnz := hl.ne_zero ht.range
  have hmarked : Marked bs fs.disk (inode.zones MX3_IIDZONE) := hm .doubly trivial hz
  obtain ⟨r, hr⟩ := setZone_doubly_fresh t hk hpos rfl hz hfresh hnz
  have hslot := renews_slot (v := nz) hppz (ht.distinct hl hm hd) hin (place_block k hk) hz
    (Or.inl ⟨ht.empty, (ht.fresh hl hm (n := .doubly) trivial).symm⟩)
  have hdistinct := hslot.distinct (ht.distinct hl hm hd) fun _ n hn => ht.fresh hl hm hn
  refine ⟨_, hr, ?_⟩
  simp only [Fs.withDisk_disk]
  rw [baddr32_eq (hl.baddr_lt ht.range), baddr32_eq (hl.baddr_lt hmarked.1),
    blit_window_taken ht hl hmarked hk]
  exact (hslot.store hppz hdistinct hin hnz).after_taken ht hl hm

theorem sets_doubly_first (t : Word) (hfresh : freshBlock bs fs = .ok (fs₁, nz))
    (hfresh₂ : freshBlock bs fs₁ = .ok (fs₂, nz₂)) :
    SetsBelow bs fs inode (blockStart bs 1) t .doubly := by
  have hppz := ppz_pos hl
  have hin : (Node.block 1).In bs := block_in hppz hppz
  obtain ⟨ht, -, -⟩ := freshBlock_taken hl hfresh
  have hl₁ := (ht.extends hl).layout hl
  obtain ⟨ht₂, -, -⟩ := freshBlock_taken hl₁ hfresh₂
  have hnz := hl.ne_zero ht.range
  have hnz₂ := hl₁.ne_zero ht₂.range
  have hmarked : Marked bs fs₁.disk nz := (ht.marked_iff hl nz).mpr (Or.inl rfl)
  have hplace : Node.doubly.place bs = .root MX3_IIDZONE := rfl
  have hroot : Renews bs fs₁.disk inode fs₁.disk (inode.setZone MX3_IIDZONE nz) .doubly nz :=
    renews_root hppz hplace (Or.inl ht.empty)
  have hm₁ := hroot.markedZones (ht.markedZones hl hm) (fun _ h => h) fun _ => hmarked
  have hd₁ := hroot.distinct (ht.distinct hl hm hd) fun _ n hn => ht.fresh hl hm hn
  have hblock : nodeZone bs fs₂.disk (inode.setZone MX3_IIDZONE nz) .doubly = nz :=
    Inode.setZone_same inode MX3_IIDZONE nz
  have hother : nz ≠ nz₂ := hblock ▸ ht₂.fresh hl₁ hm₁ (n := .doubly) trivial
  have hslot := renews_slot (v := nz₂) hppz (ht₂.distinct hl₁ hm₁ hd₁) hin (place_block 0 hppz)
    (by rwa [hblock]) (Or.inl ⟨ht₂.empty, by rw [hblock]; exact hother.symm⟩)
  have hdistinct := hslot.distinct (ht₂.distinct hl₁ hm₁ hd₁) fun _ n hn => ht₂.fresh hl₁ hm₁ hn
  have hbelow : (fileShape bs).Under .doubly (.block 1) := .slot (place_block 0 hppz) .refl
  obtain ⟨r, hr⟩ := setZone_doubly_first t hppz rfl hfresh hnz hfresh₂ hnz₂
  refine ⟨_, hr, ?_⟩
  have hwrite := blit_window_taken (t := nz₂) ht₂ hl₁ hmarked hppz
  rw [Nat.mul_zero, Nat.add_zero] at hwrite
  rw [hblock, Nat.mul_zero, Nat.add_zero] at hslot hdistinct
  simp only [Fs.withDisk_disk]
  rw [baddr32_eq (hl₁.baddr_lt ht₂.range), baddr32_eq (hl.baddr_lt ht.range), hwrite]
  exact (hroot.resets_below ((hslot.store hppz hdistinct hin hnz₂).after_taken ht₂ hl₁ hm₁) hbelow
    (by simp)).after_taken ht hl hm

end Sets

/-! ## When a set keeps the other zones -/

section Keeps

variable {bs : ℕ} {fs : Fs} {inode : Inode} {i : ℕ}

/-- Two free zones lie where the search for one begins, or behind. -/
def FreePair (bs : ℕ) (fs : Fs) : Prop :=
  (getSuperblock fs.disk).firstZone ≤ searchStart fs ∧
    ∃ z₁ z₂, FreeZone bs fs.disk z₁ ∧ FreeZone bs fs.disk z₂ ∧ searchStart fs ≤ z₁ ∧ z₁ < z₂

theorem freshBlock_ahead {zone : Word} (hfirst : (getSuperblock fs.disk).firstZone ≤ searchStart fs)
    (hz : FreeZone bs fs.disk zone) (hle : searchStart fs ≤ zone) :
    ∃ fs₁ nz, freshBlock bs fs = .ok (fs₁, nz) ∧ nz ≤ zone := by
  obtain ⟨nz, hfound, -, hnz, -⟩ := availableZoneFrom_ahead rounds hfirst hle hz.1 hz.2
    (by have := zone.isLt; unfold rounds; omega)
  have hget := getAvailableZone_of hfound
  refine ⟨{ fs with
    disk := setZoneToZero bs (setZoneOccupied bs (setZoneToZero bs fs.disk nz) nz) nz
    zoneCursor := nz }, nz, ?_, hnz⟩
  simp only [freshBlock, hget]

/-- The zone taken is the first free one, so the next search still finds the second. -/
theorem FreePair.blocks (h : FreePair bs fs) (hl : ZoneLayout bs fs.disk) :
    ∃ fs₁ nz fs₂ nz₂, freshBlock bs fs = .ok (fs₁, nz) ∧ freshBlock bs fs₁ = .ok (fs₂, nz₂) := by
  obtain ⟨hfirst, z₁, z₂, hz₁, hz₂, hstart, hlt⟩ := h
  have hlt : z₁.toNat < z₂.toNat := hlt
  obtain ⟨fs₁, nz, hfresh, hle⟩ := freshBlock_ahead hfirst hz₁ hstart
  have hle : nz.toNat ≤ z₁.toNat := hle
  obtain ⟨ht, hcursor, -⟩ := freshBlock_taken hl hfresh
  have hsuper := ht.super hl
  have hrange : isZoneInRange fs₁.disk z₂ = true := by
    rw [isZoneInRange, hsuper]
    exact hz₂.1
  have hfree : isZoneOccupied bs fs₁.disk z₂ = false := by
    by_contra hocc
    have hmarked : Marked bs fs₁.disk z₂ := ⟨hrange, by simpa using hocc⟩
    rcases (ht.marked_iff hl z₂).mp hmarked with rfl | hold
    · omega
    · rw [Marked, hz₂.2] at hold
      cases hold.2
  have hsearch : searchStart fs₁ = nz := by
    rw [searchStart, hcursor, if_neg (hl.ne_zero ht.range)]
  have hnext : nz.toNat ≤ z₂.toNat := hle.trans hlt.le
  have hfirst : (getSuperblock fs₁.disk).firstZone ≤ searchStart fs₁ := by
    rw [hsuper, hsearch]
    exact (inRange_iff.mp ht.range).1
  obtain ⟨fs₂, nz₂, hfresh₂, -⟩ := freshBlock_ahead hfirst ⟨hrange, hfree⟩ (hsearch ▸ hnext)
  exact ⟨fs₁, nz, fs₂, nz₂, hfresh, hfresh₂⟩

theorem blockStart_injective {b c : ℕ} (hppz : 0 < ppz bs) (h : blockStart bs b = blockStart bs c) :
    b = c := by
  rcases lt_trichotomy b c with hlt | heq | hlt
  · exact absurd h (blockStart_lt hppz hlt).ne
  · exact heq
  · exact absurd h (blockStart_lt hppz hlt).ne'

theorem block_ne_zero {disk : Mem} {b s : ℕ} (hs : s < ppz bs)
    (h : fileZone bs disk inode (blockStart bs b + s) ≠ 0) : pointerBlock bs disk inode b ≠ 0 := by
  rw [fileZone, zoneUnder_block b hs, blockSlot] at h
  exact fun hz => h (if_pos hz)

theorem exists_index (hppz : 0 < ppz bs) (h7 : 7 ≤ i) (hi : i < blockStart bs (1 + ppz bs)) :
    ∃ b s, b ≤ ppz bs ∧ s < ppz bs ∧ i = blockStart bs b + s := by
  refine ⟨(i - 7) / ppz bs, (i - 7) % ppz bs, block_of_lt h7 hi, Nat.mod_lt _ hppz, ?_⟩
  have := Nat.div_add_mod (i - 7) (ppz bs)
  rw [blockStart, Nat.mul_comm]
  omega

/-! The zone before lies below a block that is there. -/

theorem block_before {disk : Mem} {b s : ℕ} (hpos : 0 < s) (hs : s < ppz bs)
    (h : ∀ j < blockStart bs b + s, fileZone bs disk inode j ≠ 0) :
    pointerBlock bs disk inode b ≠ 0 :=
  block_ne_zero (s := s - 1) (by omega) (h _ (by omega))

theorem doubly_before {disk : Mem} {k : ℕ} (hpos : 0 < k) (hk : k < ppz bs)
    (h : ∀ j < blockStart bs (1 + k), fileZone bs disk inode j ≠ 0) :
    inode.zones MX3_IIDZONE ≠ 0 := by
  obtain ⟨m, rfl⟩ := Nat.exists_eq_add_of_le hpos
  have hlast := h (blockStart bs (1 + m) + (ppz bs - 1)) (by
    rw [show 1 + (Nat.succ 0 + m) = 1 + m + 1 by omega, blockStart_succ]
    omega)
  exact doubly_ne_zero (by omega) (block_ne_zero (by omega) hlast)

end Keeps

/-! The file of ten data zones once more. -/

end Minix3
