import DucreuOS.FileGrowth
import DucreuOS.InodeSearch

/-! # The contents of a file

The bytes of a file without holes, what writing behind its end and a new zone do to them, and what
becomes of the other files. -/
namespace Minix3

open ByteMemory PlacedTree

section Contents

variable {bs i j len o : ℕ} {disk disk' : Mem} {inode inode' : Inode} {data : Mem}

/-- Where byte `k` of a file lies on the device. -/
def byteAddr (bs : ℕ) (disk : Mem) (inode : Inode) (k : ℕ) : ℕ :=
  baddr bs (fileZone bs disk inode (k / bs)) + k % bs

def contents (bs : ℕ) (disk : Mem) (inode : Inode) : List Byte :=
  listed (fun k => disk (byteAddr bs disk inode k)) inode.size.toNat

/-- The bytes behind the end of the file, in the zone where it ends. -/
def BlankTail (bs : ℕ) (disk : Mem) (inode : Inode) : Prop :=
  ∀ k, inode.size.toNat ≤ k → k / bs * bs < inode.size.toNat → disk (byteAddr bs disk inode k) = 0

/-- The zones are those that the size asks for, in front of the triply indirect ones. -/
structure Whole (bs : ℕ) (disk : Mem) (inode : Inode) : Prop where
  mapped : ∀ j, (Node.data j).In bs →
    (fileZone bs disk inode j ≠ 0 ↔ j * bs < inode.size.toNat)
  limit : inode.size.toNat ≤ blockStart bs (1 + ppz bs) * bs

@[simp] theorem length_contents : (contents bs disk inode).length = inode.size.toNat :=
  length_listed _ _

theorem data_in_front (hj : j < blockStart bs (1 + ppz bs)) : (Node.data j).In bs :=
  hj.trans_le (blockStart_mono bs (Nat.le_add_right _ _))

/-- The zone of a byte of the file. -/
theorem Whole.zone_index (hw : Whole bs disk inode) {k : ℕ} (hk : k < inode.size.toNat) :
    k / bs < blockStart bs (1 + ppz bs) :=
  Nat.div_lt_of_lt_mul (by rw [Nat.mul_comm]; exact hk.trans_le hw.limit)

theorem Whole.zone_ne_zero (hw : Whole bs disk inode) {k : ℕ} (hk : k < inode.size.toNat) :
    fileZone bs disk inode (k / bs) ≠ 0 := by
  rw [hw.mapped _ (data_in_front (hw.zone_index hk))]
  exact (Nat.div_mul_le_self k bs).trans_lt hk

/-- The device and the tree agree on the zones of a file. -/
theorem contents_congr (hpos : 0 < bs) (hw : Whole bs disk inode) (hsize : inode'.size = inode.size)
    (h : ∀ j, (Node.data j).In bs → fileZone bs disk inode j ≠ 0 →
      fileZone bs disk' inode' j = fileZone bs disk inode j ∧
        ∀ x, InZone bs (fileZone bs disk inode j) x → disk' x = disk x) :
    contents bs disk' inode' = contents bs disk inode := by
  simp only [contents, hsize]
  apply listed_congr
  intro k hk
  obtain ⟨hzone, hbytes⟩ := h _ (data_in_front (hw.zone_index hk)) (hw.zone_ne_zero hk)
  have hrest := Nat.mod_lt k hpos
  simp only [byteAddr, hzone]
  exact hbytes _ ⟨Nat.le_add_right _ _, by omega⟩

theorem Whole.congr (hw : Whole bs disk inode) (hsize : inode'.size = inode.size)
    (h : ∀ j, (Node.data j).In bs → fileZone bs disk' inode' j = fileZone bs disk inode j) :
    Whole bs disk' inode' where
  mapped j hj := by
    rw [h j hj, hsize]
    exact hw.mapped j hj
  limit := hsize ▸ hw.limit

/-! ## Writing behind the end -/

/-- Bytes of one zone of a file, from offset `o` on. -/
def written (bs : ℕ) (disk : Mem) (zone : Word) (o len : ℕ) (data : Mem) : Mem :=
  blit disk (baddr bs zone + o) len data

theorem written_map {zone : Word} (hl : ZoneLayout bs disk) (hz : isZoneInRange disk zone = true) :
    SameMap bs disk (written bs disk zone o len data) := .of_low hl fun x hx =>
  blit_outside (Or.inl (by
    have := hl.bitmap
    have := ZoneLayout.dataStart_le bs hz
    omega))

theorem written_outside {zone : Word} (data : Mem) (hlen : o + len ≤ bs) {x : ℕ}
    (hx : ¬ InZone bs zone x) :
    written bs disk zone o len data x = disk x := by
  apply blit_outside
  unfold InZone at hx
  omega

/-- The zones of a file are those of the first `n` indices. -/
def ZonesUpTo (bs : ℕ) (disk : Mem) (inode : Inode) (n : ℕ) : Prop :=
  ∀ j, (Node.data j).In bs → (fileZone bs disk inode j ≠ 0 ↔ j < n)

theorem nodeZone_inode (h : inode'.zones = inode.zones) (n : Node) :
    nodeZone bs disk inode' n = nodeZone bs disk inode n := by
  cases n <;> simp only [nodeZone, fileZone, zoneUnder, pointerBlock, h]

/-- Of the zones, the last one is written from offset `o`, which is the end of the file. -/
structure AtEnd (bs : ℕ) (disk : Mem) (inode : Inode) (j o : ℕ) : Prop where
  zones : ZonesUpTo bs disk inode (j + 1)
  front : j < blockStart bs (1 + ppz bs)
  size : inode.size.toNat = j * bs + o

namespace AtEnd

variable (h : AtEnd bs disk inode j o)

include h

theorem zone : fileZone bs disk inode j ≠ 0 :=
  (h.zones j (data_in_front h.front)).mpr j.lt_succ_self

theorem index {k : ℕ} (ho : o ≤ bs) (hk : k < inode.size.toNat) : k / bs ≤ j := by
  rw [h.size] at hk
  apply Nat.le_of_lt_succ
  apply Nat.div_lt_of_lt_mul
  rw [Nat.mul_comm, Nat.succ_mul]
  omega

/-- No pointer lies in a data zone. -/
theorem nodes (data : Mem) (hl : ZoneLayout bs disk) (hd : DistinctZones bs disk inode)
    (hlen : o + len ≤ bs)
    (hsame : inode'.zones = inode.zones) : ∀ n : Node, n.In bs →
      nodeZone bs (written bs disk (fileZone bs disk inode j) o len data) inode' n =
        nodeZone bs disk inode n := by
  have hj := data_in_front h.front
  have hbytes : ∀ n : Node, n.In bs →
      nodeZone bs (written bs disk (fileZone bs disk inode j) o len data) inode n =
        nodeZone bs disk inode n := by
    apply nodeZone_congr (ppz_pos hl)
    intro p hp hleaf _ x hx
    apply written_outside data hlen
    intro hx'
    have heq : Node.data j = p := hd (.data j) p hj hp h.zone (inZone_unique hx' hx)
    exact hleaf (heq ▸ leaf_data bs j)
  intro n hn
  rw [nodeZone_inode hsame, hbytes n hn]

/-- The file is longer by what has been written behind its end. -/
theorem contents (hl : ZoneLayout bs disk) (hd : DistinctZones bs disk inode) (hlen : o + len ≤ bs)
    (hsame : inode'.zones = inode.zones) (hsize : inode'.size.toNat = inode.size.toNat + len) :
    contents bs (written bs disk (fileZone bs disk inode j) o len data) inode' =
      contents bs disk inode ++ listed data len := by
  have hpos := hl.pos
  have hin {k : ℕ} (hk : k ≤ j) : (Node.data k).In bs := data_in_front (hk.trans_lt h.front)
  have hzone {k : ℕ} (hk : k ≤ j) :
      fileZone bs (written bs disk (fileZone bs disk inode j) o len data) inode' k =
        fileZone bs disk inode k := h.nodes data hl hd hlen hsame (.data k) (hin hk)
  simp only [Minix3.contents, hsize, listed_add]
  congr 1
  · apply listed_congr
    intro k hk
    have hle := h.index (by omega) hk
    have hrest := Nat.mod_lt k hpos
    simp only [byteAddr, hzone hle]
    by_cases hkj : k / bs = j
    · -- in front of what is written
      have hsum := Nat.div_add_mod k bs
      rw [hkj, Nat.mul_comm] at hsum
      apply blit_outside
      rw [hkj]
      have := h.size
      omega
    · apply written_outside data hlen
      intro hx
      have hne := (h.zones (k / bs) (hin hle)).mpr (Nat.lt_succ_of_le hle)
      have hx' : InZone bs (fileZone bs disk inode (k / bs))
          (baddr bs (fileZone bs disk inode (k / bs)) + k % bs) := ⟨Nat.le_add_right _ _, by omega⟩
      exact hkj (Node.data.inj (hd (.data (k / bs)) (.data j) (hin hle) (hin le_rfl) hne
        (inZone_unique hx' hx)))
  · apply listed_congr
    intro k hk
    have hdiv : (inode.size.toNat + k) / bs = j := by
      rw [h.size]
      apply Nat.div_eq_of_lt_le
      · omega
      · rw [Nat.succ_mul]
        omega
    have hmod : (inode.size.toNat + k) % bs = o + k := by
      have hsum := Nat.div_add_mod (inode.size.toNat + k) bs
      rw [hdiv, Nat.mul_comm] at hsum
      have := h.size
      omega
    simp only [window, byteAddr]
    rw [hdiv, hmod, hzone le_rfl, written, blit_inside (by omega) (by omega)]
    congr 1
    omega

theorem whole (hl : ZoneLayout bs disk) (hd : DistinctZones bs disk inode) (hlen : o + len ≤ bs)
    (hpos : 0 < o + len) (hsame : inode'.zones = inode.zones)
    (hsize : inode'.size.toNat = inode.size.toNat + len) :
    Whole bs (written bs disk (fileZone bs disk inode j) o len data) inode' where
  mapped k hk := by
    have hnode := h.nodes data hl hd hlen hsame (.data k) hk
    simp only [nodeZone] at hnode
    rw [hnode, h.zones k hk, hsize, h.size, Nat.lt_succ_iff]
    constructor
    · intro hle
      have := Nat.mul_le_mul_right bs hle
      omega
    · intro hlt
      by_contra hgt
      have := Nat.mul_le_mul_right bs (Nat.succ_le_of_lt (not_le.mp hgt))
      rw [Nat.succ_mul] at this
      omega
  limit := by
    have := Nat.mul_le_mul_right bs (Nat.succ_le_of_lt h.front)
    rw [Nat.succ_mul] at this
    rw [hsize, h.size]
    omega

theorem blank (hl : ZoneLayout bs disk) (hd : DistinctZones bs disk inode) (hlen : o + len ≤ bs)
    (hsame : inode'.zones = inode.zones) (hsize : inode'.size.toNat = inode.size.toNat + len)
    (hzero : ∀ x, o + len ≤ x → x < bs → disk (baddr bs (fileZone bs disk inode j) + x) = 0) :
    BlankTail bs (written bs disk (fileZone bs disk inode j) o len data) inode' := by
  have hpos := hl.pos
  have hnode := h.nodes data hl hd hlen hsame (.data j) (data_in_front h.front)
  intro k hk hlast
  rw [hsize, h.size] at hk hlast
  have hdiv : k / bs = j := by
    have hlow : j ≤ k / bs := (Nat.le_div_iff_mul_le hpos).mpr (by omega)
    by_contra hne
    have hnext := Nat.mul_le_mul_right bs (show j + 1 ≤ k / bs by omega)
    rw [Nat.succ_mul] at hnext
    omega
  have hsum := Nat.div_add_mod k bs
  have hmod := Nat.mod_lt k hpos
  rw [hdiv, Nat.mul_comm] at hsum
  simp only [nodeZone] at hnode
  rw [byteAddr, hdiv, hnode, written, blit_outside (by omega)]
  exact hzero _ (by omega) hmod

theorem grown (hl : ZoneLayout bs disk) (hd : DistinctZones bs disk inode)
    (hm : MarkedZones bs disk inode) (hlen : o + len ≤ bs) (hsame : inode'.zones = inode.zones) :
    Grown bs (treeZones bs disk inode) disk inode
      (written bs disk (fileZone bs disk inode j) o len data) inode' := by
  have hnodes := h.nodes data hl hd hlen hsame
  have hj := data_in_front h.front
  have hwrites := Extends.of_write hl (hm (.data j) hj h.zone).1 fun x hx =>
    written_outside data hlen hx
  refine ⟨hwrites.mono ?_, fun m n hmi hni hne he => ?_, fun n hn hz => ?_, fun n hn _ =>
    Or.inl (hnodes n hn)⟩
  · exact Set.singleton_subset_iff.mpr ⟨.data j, hj, rfl⟩
  · rw [hnodes m hmi] at hne he
    rw [hnodes n hni] at he
    exact hd m n hmi hni hne he
  · rw [hnodes n hn] at hz ⊢
    exact hwrites.marks _ (hm n hn hz)

end AtEnd

/-! ## A new zone behind the end -/

/-- The end of a file that fills its zones, and of one that does not. -/
theorem Whole.zonesUpTo (hw : Whole bs disk inode) (hpos : 0 < bs)
    (hsize : inode.size.toNat = i * bs) : ZonesUpTo bs disk inode i := by
  intro j hj
  rw [hw.mapped j hj, hsize]
  exact Nat.mul_lt_mul_right hpos

theorem Whole.atEnd (hw : Whole bs disk inode) (ho : 0 < o) (hle : o ≤ bs)
    (hsize : inode.size.toNat = j * bs + o) : AtEnd bs disk inode j o where
  zones k hk := by
    rw [hw.mapped k hk, hsize, Nat.lt_succ_iff]
    constructor
    · intro hlt
      by_contra hgt
      have := Nat.mul_le_mul_right bs (Nat.succ_le_of_lt (not_le.mp hgt))
      rw [Nat.succ_mul] at this
      omega
    · intro hkj
      have := Nat.mul_le_mul_right bs hkj
      omega
  front := by
    by_contra hge
    have := Nat.mul_le_mul_right bs (not_lt.mp hge)
    have := hw.limit
    omega
  size := hsize

/-- Zone `z` is zeroed, marked and the last one found. -/
def Fs.taking (bs : ℕ) (fs : Fs) (z : Word) : Fs :=
  { fs with disk := setZoneOccupied bs (setZoneToZero bs fs.disk z) z, zoneCursor := z }

/-- `minix3_append_zone` has taken zone `z` for index `i`, with `k` free zones ahead. -/
structure ZoneAppended (bs : ℕ) (fs : Fs) (inode : Inode) (i k : ℕ) (z : Word) (w : Walk) :
    Prop where
  available : getAvailableZone bs fs
    = some ({ fs with disk := setZoneToZero bs fs.disk z, zoneCursor := z }, z)
  walk : zoneWalker bs (fs.taking bs z) inode i (some z) = some (w, some z)
  grown : Grown bs (treeZones bs fs.disk inode) fs.disk inode w.fs.disk w.inode
  zone : fileZone bs w.fs.disk w.inode i = z
  atEnd : AtEnd bs w.fs.disk w.inode i 0
  contents : contents bs w.fs.disk w.inode = Minix3.contents bs fs.disk inode
  blank : ∀ x, InZone bs z x → w.fs.disk x = 0
  free : FreeAhead bs w.fs k
  cursor : w.fs.inodeCursor = fs.inodeCursor
  rest : w.inode = { inode with zones := w.inode.zones }

variable {fs : Fs} {k : ℕ}

theorem zone_appended (hl : ZoneLayout bs fs.disk) (hd : DistinctZones bs fs.disk inode)
    (hm : MarkedZones bs fs.disk inode) (hw : Whole bs fs.disk inode)
    (hi : i < blockStart bs (1 + ppz bs)) (hsize : inode.size.toNat = i * bs)
    (hfree : FreeAhead bs fs (k + blockCost bs i + 1)) :
    ∃ z w, ZoneAppended bs fs inode i k z w := by
  have hup := hw.zonesUpTo hl.pos hsize
  obtain ⟨z, hget, ⟨hr, hz⟩, hahead⟩ := hfree.found hl
  have ht : Taken bs fs.disk (fs.taking bs z).disk z := Taken.of_free hl hr hz
  have g₀ : Grown bs (blockZones bs fs.disk inode) fs.disk inode fs.disk inode := .refl hd hm
  have g := g₀.take hl ht
  have hzone (j : ℕ) (hj : (Node.data j).In bs) :
      fileZone bs (fs.taking bs z).disk inode j = fileZone bs fs.disk inode j :=
    ht.nodeZone_eq hl hm (.data j) hj
  have hend : EndsAt bs (fs.taking bs z).disk inode i := by
    intro j hj hij
    rw [hzone j hj]
    by_contra hne
    exact absurd ((hup j hj).mp hne) (not_lt.mpr hij)
  have hbefore : ∀ j < i, fileZone bs (fs.taking bs z).disk inode j ≠ 0 := by
    intro j hj
    have hin := data_in_front (hj.trans hi)
    rw [hzone j hin]
    exact (hup j hin).mpr hj
  obtain ⟨w, hset⟩ := sets_next hl g (g₀.fresh hl ht) hend (g.block_subset hl) hi hbefore
    (hahead _ ht rfl)
  have hothers (j : ℕ) (hj : (Node.data j).In bs) (hne : j ≠ i) :
      fileZone bs w.fs.disk w.inode j = fileZone bs fs.disk inode j :=
    (hset.others j hj hne).trans (hzone j hj)
  have hsizes : w.inode.size = inode.size := by rw [hset.rest]
  refine ⟨z, w, hget, hset.walk, ?_, hset.here, ⟨fun j hj => ?_, hi, by rw [hsizes, hsize]; rfl⟩,
    ?_, fun x hx => (hset.kept x hx).trans (ht.zeroed x hx), hset.free, hset.cursor, hset.rest⟩
  · exact ⟨hset.grown.writes.mono blockZones_subset, hset.grown.distinct, hset.grown.marked,
      hset.grown.origin⟩
  · by_cases hji : j = i
    · subst hji
      rw [hset.here]
      exact iff_of_true (hl.ne_zero hr) j.lt_succ_self
    · rw [hothers j hj hji, hup j hj]
      omega
  · -- the bytes lie in data zones, which the set has not written
    apply contents_congr hl.pos hw hsizes
    intro j hj hne
    have hji : j ≠ i := ((hup j hj).mp hne).ne
    refine ⟨hothers j hj hji, hset.grown.writes.zones _ (hm (.data j) hj hne) ?_⟩
    rintro ⟨p, hp, hleaf, heq⟩
    have hpj : Node.data j = p := hd (.data j) p hj hp hne heq.symm
    exact hleaf (hpj ▸ leaf_data bs j)

end Contents

/-! ## The other files -/

section Others

variable {bs : ℕ} {disk disk' : Mem} {inode inode' other : Inode}

/-- Two files without a common zone. -/
def Apart (bs : ℕ) (disk : Mem) (inode inode' : Inode) : Prop :=
  ∀ m n : Node, m.In bs → n.In bs → nodeZone bs disk inode m ≠ 0 →
    nodeZone bs disk inode m ≠ nodeZone bs disk inode' n

theorem Apart.symm (h : Apart bs disk inode inode') : Apart bs disk inode' inode :=
  fun m n hm hn hz he => h n m hn hm (he ▸ hz) he.symm

/-- The zones of a file and their bytes are what they were. -/
structure Kept (bs : ℕ) (disk disk' : Mem) (inode : Inode) : Prop where
  nodes : ∀ n : Node, n.In bs → nodeZone bs disk' inode n = nodeZone bs disk inode n
  bytes : ∀ n : Node, n.In bs → nodeZone bs disk inode n ≠ 0 →
    ∀ x, InZone bs (nodeZone bs disk inode n) x → disk' x = disk x
  marks : MarkedZones bs disk' inode

theorem Kept.of_bytes (hl : ZoneLayout bs disk) (hm : MarkedZones bs disk inode)
    (hmarks : ∀ z, Marked bs disk z → Marked bs disk' z)
    (h : ∀ n : Node, n.In bs → nodeZone bs disk inode n ≠ 0 →
      ∀ x, InZone bs (nodeZone bs disk inode n) x → disk' x = disk x) :
    Kept bs disk disk' inode := by
  have hnodes := nodeZone_congr (ppz_pos hl) fun p hp _ hz => h p hp hz
  refine ⟨hnodes, h, fun n hn hz => ?_⟩
  rw [hnodes n hn] at hz ⊢
  exact hmarks _ (hm n hn hz)

theorem Kept.of_map (hl : ZoneLayout bs disk) (hm : MarkedZones bs disk inode)
    (hs : SameMap bs disk disk') (h : ∀ x, dataStart bs disk ≤ x → disk' x = disk x) :
    Kept bs disk disk' inode :=
  .of_bytes hl hm (fun _ hz => hs.marked_iff.mpr hz) fun n hn hz x hx =>
    h x ((ZoneLayout.dataStart_le bs (hm n hn hz).1).trans hx.1)

theorem Kept.trans {disk'' : Mem} (h : Kept bs disk disk' inode) (h' : Kept bs disk' disk'' inode) :
    Kept bs disk disk'' inode where
  nodes n hn := (h'.nodes n hn).trans (h.nodes n hn)
  bytes n hn hz x hx := by
    have hnode := h.nodes n hn
    rw [h'.bytes n hn (hnode.symm ▸ hz) x (hnode.symm ▸ hx), h.bytes n hn hz x hx]
  marks := h'.marks

theorem Kept.distinct (h : Kept bs disk disk' inode) (hd : DistinctZones bs disk inode) :
    DistinctZones bs disk' inode := by
  intro m n hm hn hz he
  rw [h.nodes m hm] at hz he
  rw [h.nodes n hn] at he
  exact hd m n hm hn hz he

theorem Kept.apart (h : Kept bs disk disk' inode) (h' : Kept bs disk disk' inode')
    (ha : Apart bs disk inode inode') : Apart bs disk' inode inode' := by
  intro m n hm hn hz
  rw [h.nodes m hm] at hz ⊢
  rw [h'.nodes n hn]
  exact ha m n hm hn hz

theorem Kept.contents (h : Kept bs disk disk' inode) (hpos : 0 < bs) (hw : Whole bs disk inode) :
    contents bs disk' inode = Minix3.contents bs disk inode :=
  contents_congr hpos hw rfl fun j hj hz => ⟨h.nodes (.data j) hj, h.bytes (.data j) hj hz⟩

/-- Every byte of the zones of a file. -/
theorem Kept.byte (h : Kept bs disk disk' inode) (hpos : 0 < bs) (hw : Whole bs disk inode) {k : ℕ}
    (hk : k / bs * bs < inode.size.toNat) :
    disk' (byteAddr bs disk' inode k) = disk (byteAddr bs disk inode k) := by
  have hfront : k / bs < blockStart bs (1 + ppz bs) :=
    Nat.mul_div_cancel (k / bs) hpos ▸ hw.zone_index hk
  have hin := data_in_front hfront
  have hnode := h.nodes (.data (k / bs)) hin
  simp only [nodeZone] at hnode
  have hmod := Nat.mod_lt k hpos
  rw [byteAddr, hnode]
  exact h.bytes (.data (k / bs)) hin ((hw.mapped _ hin).mpr hk) _
    ⟨Nat.le_add_right _ _, by simp only [nodeZone]; omega⟩

theorem Kept.blank (h : Kept bs disk disk' inode) (hpos : 0 < bs) (hw : Whole bs disk inode)
    (hb : BlankTail bs disk inode) : BlankTail bs disk' inode := fun k hk hk' =>
  (h.byte hpos hw hk').trans (hb k hk hk')

theorem Kept.whole (h : Kept bs disk disk' inode) (hw : Whole bs disk inode) :
    Whole bs disk' inode := hw.congr rfl fun j hj => h.nodes (.data j) hj

/-- A file that grows takes nothing from another one. -/
theorem Grown.kept (g : Grown bs (treeZones bs disk inode) disk inode disk' inode')
    (hl : ZoneLayout bs disk) (hm : MarkedZones bs disk other) (ha : Apart bs disk other inode) :
    Kept bs disk disk' other := by
  apply Kept.of_bytes hl hm g.writes.marks
  intro n hn hz
  apply g.writes.zones _ (hm n hn hz)
  rintro ⟨p, hp, heq⟩
  exact ha n p hn hp hz heq.symm

theorem Grown.apart (g : Grown bs (treeZones bs disk inode) disk inode disk' inode')
    (hl : ZoneLayout bs disk) (hm : MarkedZones bs disk other) (ha : Apart bs disk other inode) :
    Apart bs disk' other inode' := by
  intro m n hmi hni hz he
  rw [(g.kept hl hm ha).nodes m hmi] at hz he
  rw [he] at hz
  rcases g.origin n hni hz with hold | hfree
  · exact ha m n hmi hni (he ▸ hz) (he.trans hold)
  · exact hfree (he ▸ hm m hmi (he ▸ hz))

end Others

/-! ## The inode table -/

section Table

variable {bs : ℕ} {disk disk' : Mem} {W : Set Word} {inode : Inode} {m n : Word}

/-- The superblock, the bitmaps, the inode table and the zones follow each other. -/
structure ImageLayout (bs : ℕ) (disk : Mem) : Prop extends ZoneLayout bs disk where
  imapSuper : superEnd ≤ imapStart bs
  imap : imapStart bs + ((getSuperblock disk).numInodes.toNat + 7) / 8 ≤
    (getSuperblock disk).zmapStart bs
  zmap : zmapEnd bs disk ≤ (getSuperblock disk).inodeStart bs
  table : (getSuperblock disk).inodeStart bs +
    (getSuperblock disk).numInodes.toNat * inodeSize ≤ dataStart bs disk

/-- A file or a directory of the device. -/
def InUse (bs : ℕ) (disk : Mem) (n : Word) : Prop :=
  InTable disk n ∧ isInodeOccupied bs disk n = true

/-- All zones of files are marked, and no zone is reached twice. -/
structure Consistent (bs : ℕ) (disk : Mem) : Prop where
  layout : ImageLayout bs disk
  distinct : ∀ n, InUse bs disk n → DistinctZones bs disk (getInode bs disk n)
  marked : ∀ n, InUse bs disk n → MarkedZones bs disk (getInode bs disk n)
  apart : ∀ m n, InUse bs disk m → InUse bs disk n → m ≠ n →
    Apart bs disk (getInode bs disk m) (getInode bs disk n)

/-- An inode lies in the table. -/
theorem inodeAddr_bounds (hl : ImageLayout bs disk) (h : InTable disk n) :
    zmapEnd bs disk ≤ inodeAddr bs disk n ∧
      inodeAddr bs disk n + inodeSize ≤ dataStart bs disk :=
  ⟨hl.zmap.trans (record_in_table h).1, (record_in_table h).2.trans hl.table⟩

theorem inodeAddr_apart (bs : ℕ) (hm : InTable disk m) (hn : InTable disk n) (hne : m ≠ n) :
    inodeAddr bs disk m + inodeSize ≤ inodeAddr bs disk n ∨
      inodeAddr bs disk n + inodeSize ≤ inodeAddr bs disk m := by
  obtain ⟨hm', hmpos⟩ := hm.pred
  obtain ⟨hn', hnpos⟩ := hn.pred
  have htoNat : m.toNat ≠ n.toNat := fun h => hne (BitVec.eq_of_toNat_eq h)
  simp only [inodeAddr, hm', hn', inodeSize]
  omega

theorem inode_load_congr {a a' : ℕ} (h : ∀ i < inodeSize, disk' (a' + i) = disk (a + i)) :
    Inode.load disk' a' = Inode.load disk a := by
  have h' (k : ℕ) {w : ℕ} (hk : k + w ≤ inodeSize) :
      ∀ i < w, disk' (a' + k + i) = disk (a + k + i) := fun i hi => by
    rw [Nat.add_assoc, Nat.add_assoc]
    exact h (k + i) (by omega)
  apply Inode.ext
  · exact load16_congr (h' 0 (by decide))
  · exact load16_congr (h' 2 (by decide))
  · exact load16_congr (h' 4 (by decide))
  · exact load16_congr (h' 6 (by decide))
  · exact load32_congr (h' 8 (by decide))
  · exact load32_congr (h' 12 (by decide))
  · exact load32_congr (h' 16 (by decide))
  · exact load32_congr (h' 20 (by decide))
  · funext i
    have hi := i.isLt
    apply load32_congr
    intro k hk
    rw [Nat.add_assoc a', Nat.add_assoc a', Nat.add_assoc a, Nat.add_assoc a]
    exact h _ (by unfold inodeSize; omega)

/-- Growing files leaves the inode table and its bitmap. -/
theorem Extends.getInode (he : Extends bs W disk disk') (hl : ImageLayout bs disk)
    (hn : InTable disk n) : getInode bs disk' n = Minix3.getInode bs disk n := by
  have hsuper := he.super hl.toZoneLayout
  obtain ⟨hlow, hhigh⟩ := inodeAddr_bounds hl hn
  simp only [Minix3.getInode, inodeAddr, hsuper]
  apply inode_load_congr
  intro i hi
  simp only [inodeAddr] at hlow hhigh
  exact he.metadata _ (by omega) (Or.inr (by omega))

theorem inUse_congr (hs : getSuperblock disk' = getSuperblock disk) (hl : ImageLayout bs disk)
    (h : ∀ x < (getSuperblock disk).zmapStart bs, disk' x = disk x) :
    InUse bs disk' n ↔ InUse bs disk n := by
  simp only [InUse, InTable, hs]
  apply and_congr_right
  intro hn
  have hin : InTable disk n := hn
  have hpred := hin.pred
  have himap := hl.imap
  have hle := hn.2
  simp only [isInodeOccupied]
  rw [bitAt_congr (h _ (by omega))]

theorem Extends.inUse (he : Extends bs W disk disk') (hl : ImageLayout bs disk) :
    InUse bs disk' n ↔ InUse bs disk n := by
  apply inUse_congr (he.super hl.toZoneLayout) hl
  intro x hx
  have hend := hl.bitmap
  exact he.metadata x (by unfold zmapEnd at hend; omega) (Or.inl hx)

/-! An inode is written back. -/

variable (inode)

theorem putInode_outside (hl : ImageLayout bs disk) (hn : InTable disk n) {x : ℕ}
    (hx : x < zmapEnd bs disk ∨ dataStart bs disk ≤ x) : putInode bs disk n inode x = disk x := by
  have := inodeAddr_bounds hl hn
  exact blit_outside (by omega)

theorem putInode_map (hl : ImageLayout bs disk) (hn : InTable disk n) :
    SameMap bs disk (putInode bs disk n inode) :=
  .of_low hl.toZoneLayout fun _ hx => putInode_outside inode hl hn (Or.inl hx)

theorem putInode_super (hl : ImageLayout bs disk) (hn : InTable disk n) :
    getSuperblock (putInode bs disk n inode) = getSuperblock disk :=
  (putInode_map inode hl hn).super

theorem getInode_putInode (hl : ImageLayout bs disk) (hn : InTable disk n) :
    getInode bs (putInode bs disk n inode) n = inode := by
  have hsuper := putInode_super inode hl hn
  simp only [getInode, inodeAddr, hsuper]
  exact Inode.load_blit inode disk _

theorem getInode_putInode_ne (hl : ImageLayout bs disk) (hn : InTable disk n) (hm : InTable disk m)
    (hne : m ≠ n) : getInode bs (putInode bs disk n inode) m = getInode bs disk m := by
  have hsuper := putInode_super inode hl hn
  have hapart := inodeAddr_apart bs hm hn hne
  simp only [getInode, inodeAddr, hsuper]
  apply inode_load_congr
  intro i hi
  simp only [inodeAddr] at hapart
  exact blit_outside (by simp only [inodeAddr]; omega)

theorem putInode_kept (hl : ImageLayout bs disk) (hn : InTable disk n) {other : Inode}
    (hm : MarkedZones bs disk other) : Kept bs disk (putInode bs disk n inode) other :=
  .of_map hl.toZoneLayout hm (putInode_map inode hl hn) fun _ hx =>
    putInode_outside inode hl hn (Or.inr hx)

variable {inode}

theorem ZoneLayout.congr (hl : ZoneLayout bs disk)
    (hs : getSuperblock disk' = getSuperblock disk) : ZoneLayout bs disk' where
  whole := hl.whole
  pos := hl.pos
  super := hs ▸ hl.super
  bitmap := by
    simp only [zmapEnd, dataStart, hs]
    exact hl.bitmap
  addressed := by
    rw [hs]
    exact hl.addressed

/-- What both writes keep of the layout. -/
theorem ImageLayout.congr (hl : ImageLayout bs disk)
    (hs : getSuperblock disk' = getSuperblock disk) : ImageLayout bs disk' := by
  have hzmap : zmapEnd bs disk' = zmapEnd bs disk := by simp only [zmapEnd, hs]
  have hdata : dataStart bs disk' = dataStart bs disk := by simp only [dataStart, hs]
  constructor
  · exact hl.toZoneLayout.congr hs
  · exact hl.imapSuper
  · rw [hs]
    exact hl.imap
  · rw [hzmap, hs]
    exact hl.zmap
  · rw [hs, hdata]
    exact hl.table

/-- File `n` has grown to `inode`, which has been written back. -/
structure Grew (bs : ℕ) (disk disk' : Mem) (n : Word) (inode : Inode) : Prop where
  super : getSuperblock disk' = getSuperblock disk
  inUse : ∀ m, InUse bs disk' m ↔ InUse bs disk m
  own : getInode bs disk' n = inode
  other : ∀ m, InUse bs disk m → m ≠ n → getInode bs disk' m = getInode bs disk m ∧
    Kept bs disk disk' (getInode bs disk m)
  consistent : Consistent bs disk'

theorem Consistent.grow (hc : Consistent bs disk) (hn : InUse bs disk n)
    (g : Grown bs (treeZones bs disk (getInode bs disk n)) disk (getInode bs disk n) disk' inode) :
    Grew bs disk (putInode bs disk' n inode) n inode ∧
      Kept bs disk' (putInode bs disk' n inode) inode := by
  have hz := hc.layout.toZoneLayout
  have hl' := hc.layout.congr (g.writes.super hz)
  have hin (m : Word) (hm : InTable disk m) : InTable disk' m := by
    rw [InTable, g.writes.super hz]
    exact hm
  have hn' := hin n hn.1
  have hsuper := putInode_super inode hl' hn'
  have huse (m : Word) : InUse bs (putInode bs disk' n inode) m ↔ InUse bs disk m := by
    rw [inUse_congr hsuper hl' fun x hx => putInode_outside inode hl' hn'
      (Or.inl (hx.trans_le (Nat.le_add_right _ _))), g.writes.inUse hc.layout]
  have hown := getInode_putInode inode hl' hn'
  have hself := putInode_kept inode hl' hn' g.marked
  have hother (m : Word) (hm : InUse bs disk m) (hne : m ≠ n) :
      getInode bs (putInode bs disk' n inode) m = getInode bs disk m ∧
        Kept bs disk (putInode bs disk' n inode) (getInode bs disk m) := by
    have hkept := g.kept hz (hc.marked m hm) (hc.apart m n hm hn hne)
    rw [getInode_putInode_ne inode hl' hn' (hin m hm.1) hne, g.writes.getInode hc.layout hm.1]
    exact ⟨rfl, hkept.trans (putInode_kept inode hl' hn' hkept.marks)⟩
  -- two files that are not the one that has grown, or one of them is
  have hapart (m : Word) (hm : InUse bs disk m) (hne : m ≠ n) :
      Apart bs (putInode bs disk' n inode) (getInode bs disk m) inode := by
    have ha := g.apart hz (hc.marked m hm) (hc.apart m n hm hn hne)
    have hkept := g.kept hz (hc.marked m hm) (hc.apart m n hm hn hne)
    exact (putInode_kept inode hl' hn' hkept.marks).apart hself ha
  refine ⟨⟨hsuper.trans (g.writes.super hz), huse, hown, hother, ?_⟩, hself⟩
  refine ⟨hl'.congr hsuper, fun m hm => ?_, fun m hm => ?_, fun m k hm hk hmk => ?_⟩
  · rw [huse] at hm
    by_cases hmn : m = n
    · subst hmn
      rw [hown]
      exact hself.distinct g.distinct
    · rw [(hother m hm hmn).1]
      exact (hother m hm hmn).2.distinct (hc.distinct m hm)
  · rw [huse] at hm
    by_cases hmn : m = n
    · subst hmn
      rw [hown]
      exact hself.marks
    · rw [(hother m hm hmn).1]
      exact (hother m hm hmn).2.marks
  · rw [huse] at hm hk
    by_cases hmn : m = n
    · subst hmn
      rw [hown, (hother k hk hmk.symm).1]
      exact (hapart k hk hmk.symm).symm
    · by_cases hkn : k = n
      · subst hkn
        rw [hown, (hother m hm hmn).1]
        exact hapart m hm hmn
      · rw [(hother m hm hmn).1, (hother k hk hkn).1]
        exact (hother m hm hmn).2.apart (hother k hk hkn).2 (hc.apart m k hm hk hmk)

end Table

end Minix3
