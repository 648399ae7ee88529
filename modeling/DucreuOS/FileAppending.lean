import DucreuOS.FileReading

/-! # Appending to a file

What a call of `minix3_append_to_file` does to a file without holes: the rest of the last zone is
filled, and new zones follow until nothing is left. -/
namespace Minix3

open ByteMemory

/-! ## A file that has become longer -/

section Longer

variable {bs j o len : ℕ} {fs₀ fs : Fs} {inode₀ inode : Inode} {bytes : List Byte} {data : Mem}

theorem ZoneAppended.range {i k : ℕ} {z : Word} {w : Walk} (ha : ZoneAppended bs fs inode i k z w) :
    isZoneInRange w.fs.disk z = true := by
  have hmarked := ha.grown.marked (.data i) (data_in_front ha.atEnd.front) ha.atEnd.zone
  exact ha.zone ▸ hmarked.1

theorem ZoneAppended.end_lt {i k : ℕ} {z : Word} {w : Walk} (ha : ZoneAppended bs fs inode i k z w)
    (hl : ZoneLayout bs fs.disk) : (i + 1) * bs < 2 ^ 32 :=
  zones_end_lt (ha.grown.writes.layout hl) ha.grown.distinct ha.grown.marked ha.atEnd.front
    fun _ hk => (ha.atEnd.zones _ (data_in_front (hk.trans_lt ha.atEnd.front))).mpr
      (Nat.lt_succ_of_le hk)

/-- Since `fs₀` these bytes have been appended to the file. -/
structure LongerBy (bs : ℕ) (fs₀ : Fs) (inode₀ : Inode) (bytes : List Byte) (fs : Fs)
    (inode : Inode) : Prop where
  grown : Grown bs (treeZones bs fs₀.disk inode₀) fs₀.disk inode₀ fs.disk inode
  whole : Whole bs fs.disk inode
  contents : contents bs fs.disk inode = Minix3.contents bs fs₀.disk inode₀ ++ bytes
  blank : BlankTail bs fs₀.disk inode₀ → BlankTail bs fs.disk inode
  cursor : fs.inodeCursor = fs₀.inodeCursor
  rest : inode = { inode₀ with size := inode.size, zones := inode.zones }

namespace LongerBy

theorem refl (h : Sound bs fs.disk inode) : LongerBy bs fs inode [] fs inode :=
  ⟨.refl h.distinct h.marked, h.whole, (List.append_nil _).symm, id, rfl, rfl⟩

variable (hb : LongerBy bs fs₀ inode₀ bytes fs inode)

include hb

theorem sound (hl : ZoneLayout bs fs₀.disk) : Sound bs fs.disk inode :=
  ⟨hb.grown.writes.layout hl, hb.grown.distinct, hb.grown.marked, hb.whole⟩

theorem size : inode.size.toNat = inode₀.size.toNat + bytes.length := by
  have hlen := congrArg List.length hb.contents
  simpa using hlen

/-- Both kinds of step write in a zone of the file behind its end. -/
theorem step {fs₁ : Fs} {inode₁ inode₂ : Inode} (hl : ZoneLayout bs fs₀.disk)
    (hg : Grown bs (treeZones bs fs.disk inode) fs.disk inode fs₁.disk inode₁)
    (hkept : Minix3.contents bs fs₁.disk inode₁ = Minix3.contents bs fs.disk inode)
    (hend : AtEnd bs fs₁.disk inode₁ j o) (hpos : 0 < o + len) (hlen : o + len ≤ bs)
    (hsame : inode₂.zones = inode₁.zones) (hsize : inode₂.size.toNat = inode₁.size.toNat + len)
    (hblank : BlankTail bs fs₀.disk inode₀ → ∀ x, o + len ≤ x → x < bs →
      fs₁.disk (baddr bs (fileZone bs fs₁.disk inode₁ j) + x) = 0)
    (hcursor : fs₁.inodeCursor = fs.inodeCursor)
    (hrest : inode₂ = { inode with size := inode₂.size, zones := inode₂.zones }) :
    LongerBy bs fs₀ inode₀ (bytes ++ listed data len)
      (fs₁.withDisk (written bs fs₁.disk (fileZone bs fs₁.disk inode₁ j) o len data)) inode₂ := by
  have hl' := hb.grown.writes.layout hl
  have hl₁ := hg.writes.layout hl'
  have hwrite : Grown bs (treeZones bs fs₁.disk inode₁) fs₁.disk inode₁
      (written bs fs₁.disk (fileZone bs fs₁.disk inode₁ j) o len data) inode₂ :=
    hend.grown hl₁ hg.distinct hg.marked hlen hsame
  have hboth := hg.trans hwrite hl' (hg.tree_subset hl')
  refine ⟨hb.grown.trans hboth hl (hb.grown.tree_subset hl), ?_, ?_,
    fun h => hend.blank hl₁ hg.distinct hlen hsame hsize (hblank h), hcursor.trans hb.cursor,
    hrest.trans (by rw [hb.rest])⟩
  · exact hend.whole hl₁ hg.distinct hlen hpos hsame hsize
  · rw [Fs.withDisk_disk, hend.contents hl₁ hg.distinct hlen hsame hsize, hkept, hb.contents,
      List.append_assoc]

/-- The last zone is filled further. -/
theorem fill (hl : ZoneLayout bs fs₀.disk) (ho : 0 < o) (hlen : o + len ≤ bs)
    (hsize : inode.size.toNat = j * bs + o) {v : Word} (hv : v.toNat = len) :
    LongerBy bs fs₀ inode₀ (bytes ++ listed data len)
      (fs.withDisk (written bs fs.disk (fileZone bs fs.disk inode j) o len data))
      { inode with size := inode.size + v } := by
  have hs := hb.sound hl
  have hlt := hs.end_lt (show j * bs < inode.size.toNat by omega)
  rw [Nat.succ_mul] at hlt
  refine hb.step hl (.refl hs.distinct hs.marked) rfl
    (hb.whole.atEnd ho (by omega) hsize) (by omega) hlen rfl ?_ (fun h x hx hx' => ?_) rfl rfl
  · rw [BitVec.toNat_add, hv]
    exact Nat.mod_eq_of_lt (by omega)
  · have hdiv : (j * bs + x) / bs = j :=
      Nat.div_eq_of_lt_le (by omega) (by rw [Nat.succ_mul]; omega)
    have hmod : (j * bs + x) % bs = x := Nat.mul_add_mod_of_lt hx'
    have hzero := hb.blank h (j * bs + x) (by omega) (by rw [hdiv]; omega)
    rwa [byteAddr, hdiv, hmod] at hzero

/-- A new zone is filled. -/
theorem block {i k : ℕ} {z : Word} {w : Walk} (hl : ZoneLayout bs fs₀.disk)
    (ha : ZoneAppended bs fs inode i k z w) (hpos : 0 < len) (hlen : len ≤ bs) {v : Word}
    (hv : v.toNat = len) :
    LongerBy bs fs₀ inode₀ (bytes ++ listed data len)
      (w.fs.withDisk (written bs w.fs.disk z 0 len data))
      { w.inode with size := w.inode.size + v } := by
  have hlt := ha.end_lt (hb.grown.writes.layout hl)
  rw [Nat.succ_mul] at hlt
  have hsize := ha.atEnd.size
  rw [← ha.zone]
  refine hb.step hl ha.grown ha.contents ha.atEnd (by omega) (by omega) rfl ?_
    (fun _ x _ hx => ?_) ha.cursor (by rw [ha.rest])
  · rw [BitVec.toNat_add, hv]
    exact Nat.mod_eq_of_lt (by omega)
  · rw [ha.zone]
    exact ha.blank _ ⟨Nat.le_add_right _ _, by omega⟩

end LongerBy

end Longer

/-! ## Zones for the bytes -/

section Costs

variable {bs i k len : ℕ} {fs : Fs}

/-- The data zones of a file of this size. -/
def dataZones (bs size : ℕ) : ℕ := (size + bs - 1) / bs

/-- The zones that `len` more bytes take, pointer blocks included. -/
def growCost (bs size len : ℕ) : ℕ :=
  ∑ i ∈ Finset.Ico (dataZones bs size) (dataZones bs (size + len)), (blockCost bs i + 1)

theorem dataZones_mono (bs : ℕ) : Monotone (dataZones bs) := fun a b h =>
  Nat.div_le_div_right (by omega)

theorem growCost_add (bs size a b : ℕ) :
    growCost bs size (a + b) = growCost bs size a + growCost bs (size + a) b := by
  unfold growCost
  rw [← Nat.add_assoc, Finset.sum_Ico_consecutive _ (dataZones_mono bs (Nat.le_add_right _ _))
    (dataZones_mono bs (Nat.le_add_right _ _))]

theorem dataZones_block (hpos : 0 < len) (hlen : len ≤ bs) (i : ℕ) :
    dataZones bs (i * bs + len) = i + 1 := by
  unfold dataZones
  apply Nat.div_eq_of_lt_le
  · rw [Nat.succ_mul]
    omega
  · rw [Nat.succ_mul, Nat.succ_mul]
    omega

theorem dataZones_full (hpos : 0 < bs) (i : ℕ) : dataZones bs (i * bs) = i := by
  unfold dataZones
  apply Nat.div_eq_of_lt_le
  · omega
  · rw [Nat.succ_mul]
    omega

/-- Within the last zone. -/
theorem growCost_fill {o : ℕ} (ho : 0 < o) (hlen : o + len ≤ bs) (i : ℕ) :
    growCost bs (i * bs + o) len = 0 := by
  unfold growCost
  rw [Nat.add_assoc, dataZones_block ho (by omega), dataZones_block (by omega) hlen,
    Finset.Ico_self, Finset.sum_empty]

theorem growCost_block (hpos : 0 < len) (hlen : len ≤ bs) (i : ℕ) :
    growCost bs (i * bs) len = blockCost bs i + 1 := by
  unfold growCost
  rw [dataZones_block hpos hlen, dataZones_full (by omega), Nat.Ico_succ_singleton,
    Finset.sum_singleton]

theorem FreeAhead.written {o : ℕ} {z : Word} (h : FreeAhead bs fs k) (hl : ZoneLayout bs fs.disk)
    (hz : isZoneInRange fs.disk z = true) (data : Mem) :
    FreeAhead bs (fs.withDisk (written bs fs.disk z o len data)) k :=
  h.congr (written_map hl hz)

end Costs

/-- What a call leaves: the file is longer by these bytes, and the others are kept. -/
structure AppendedTo (bs : ℕ) (fs : Fs) (n : Word) (bytes : List Byte) (fs' : Fs) : Prop where
  grew : Grew bs fs.disk fs'.disk n (getInode bs fs'.disk n)
  whole : Whole bs fs'.disk (getInode bs fs'.disk n)
  contents : contents bs fs'.disk (getInode bs fs'.disk n) =
    contents bs fs.disk (getInode bs fs.disk n) ++ bytes
  blank : BlankTail bs fs.disk (getInode bs fs.disk n) →
    BlankTail bs fs'.disk (getInode bs fs'.disk n)
  cursor : fs'.inodeCursor = fs.inodeCursor
  rest : getInode bs fs'.disk n = { getInode bs fs.disk n with
    size := (getInode bs fs'.disk n).size, zones := (getInode bs fs'.disk n).zones }

/-- The inode of the longer file is written back. -/
theorem LongerBy.put {bs : ℕ} {fs fs' : Fs} {n : Word} {inode : Inode} {bytes : List Byte}
    (hc : Consistent bs fs.disk) (hn : InUse bs fs.disk n)
    (hb : LongerBy bs fs (getInode bs fs.disk n) bytes fs' inode) :
    AppendedTo bs fs n bytes (fs'.withDisk (putInode bs fs'.disk n inode)) := by
  obtain ⟨hgrew, hkept⟩ := hc.grow hn hb.grown
  have hown := hgrew.own
  refine ⟨?_, ?_, ?_, fun h => ?_, hb.cursor, ?_⟩
  · rw [Fs.withDisk_disk, hown]
    exact hgrew
  · rw [Fs.withDisk_disk, hown]
    exact hkept.whole hb.whole
  · rw [Fs.withDisk_disk, hown, hkept.contents hc.layout.pos hb.whole, hb.contents]
  · rw [Fs.withDisk_disk, hown]
    exact hkept.blank hc.layout.pos hb.whole (hb.blank h)
  · rw [Fs.withDisk_disk, hown]
    exact hb.rest

def fileSize (bs : ℕ) (disk : Mem) (n : Word) : ℕ := (getInode bs disk n).size.toNat

/-- Every file without holes after a call. -/
theorem AppendedTo.file {bs : ℕ} {fs fs' : Fs} {n m : Word} {bytes : List Byte}
    (ha : AppendedTo bs fs n bytes fs') (hc : Consistent bs fs.disk) (hm : InUse bs fs.disk m)
    (hw : Whole bs fs.disk (getInode bs fs.disk m)) :
    Whole bs fs'.disk (getInode bs fs'.disk m) ∧
      Minix3.contents bs fs'.disk (getInode bs fs'.disk m) =
        Minix3.contents bs fs.disk (getInode bs fs.disk m) ++ if n = m then bytes else [] := by
  by_cases heq : n = m
  · subst heq
    rw [if_pos rfl]
    exact ⟨ha.whole, ha.contents⟩
  · obtain ⟨hsame, hkept⟩ := ha.grew.other m hm (Ne.symm heq)
    rw [if_neg heq, List.append_nil, hsame]
    exact ⟨hkept.whole hw, hkept.contents hc.layout.pos hw⟩

theorem AppendedTo.fileSize {bs : ℕ} {fs fs' : Fs} {n m : Word} {bytes : List Byte}
    (ha : AppendedTo bs fs n bytes fs') (hc : Consistent bs fs.disk) (hm : InUse bs fs.disk m)
    (hw : Whole bs fs.disk (getInode bs fs.disk m)) :
    fileSize bs fs'.disk m = fileSize bs fs.disk m + if n = m then bytes.length else 0 := by
  have hlen := congrArg List.length (ha.file hc hm hw).2
  rw [List.length_append, length_contents, length_contents] at hlen
  rw [Minix3.fileSize, hlen, Minix3.fileSize]
  split_ifs <;> rfl

theorem FreeAhead.put {bs k : ℕ} {fs : Fs} {n : Word} (h : FreeAhead bs fs k)
    (hl : ImageLayout bs fs.disk) (hn : InTable fs.disk n) (inode : Inode) :
    FreeAhead bs (fs.withDisk (putInode bs fs.disk n inode)) k :=
  h.congr (putInode_map inode hl hn)

namespace FileOps

open LiveBlocks

/-! ## One call -/

section Call

variable {dev : Mount} {fs fs₀ : Fs} {inode inode₀ : Inode} {i k n : ℕ}

/-- The last zone begins inside the file, unless there is no data. -/
theorem lastZone_inside {size bs : ℕ} (hi : i = (size - 1) / bs) : i * bs < size ∨ i = 0 := by
  rcases Nat.eq_zero_or_pos size with hzero | hpos
  · rw [hzero, Nat.zero_sub, Nat.zero_div] at hi
    exact Or.inr hi
  · have := Nat.div_mul_le_self (size - 1) bs
    rw [hi]
    omega

theorem getLastFileZone_sound (h : Sound dev.bs fs.disk inode) :
    Ensures ∅ (At fs) (getLastFileZone dev inode) fun z m =>
      z.toNat = (inode.size.toNat - 1) / dev.bs ∧ At fs m := by
  unfold getLastFileZone
  by_cases hzero : inode.size = 0
  · rw [if_pos hzero, hzero]
    exact ensures_pure _ fun m hm => ⟨(Nat.zero_div dev.bs).symm, hm⟩
  rw [if_neg hzero]
  have hpos : 0 < inode.size.toNat :=
    Nat.pos_of_ne_zero fun he => hzero (BitVec.eq_of_toNat_eq he)
  have hbs : (BitVec.ofNat 32 dev.bs).toNat = dev.bs := by
    have hlt := h.end_lt (j := 0) (by omega)
    rw [BitVec.toNat_ofNat]
    exact Nat.mod_eq_of_lt (by omega)
  have hguess : ((inode.size - 1) / BitVec.ofNat 32 dev.bs).toNat
      = (inode.size.toNat - 1) / dev.bs := by
    have hone : (1 : Word).toNat = 1 := rfl
    rw [BitVec.toNat_udiv, hbs, BitVec.toNat_sub_of_le (by rw [BitVec.le_def, hone]; omega), hone]
  have hsum := Nat.div_add_mod (inode.size.toNat - 1) dev.bs
  have hmod := Nat.mod_lt (inode.size.toNat - 1) h.layout.pos
  rw [Nat.mul_comm] at hsum
  rw [rounds, lastFileZoneFrom, hguess]
  apply (gzbars_sound h (Or.inl (by omega))).step
  dsimp only
  rw [if_neg (by omega)]
  exact ensures_pure _ fun m hm => ⟨hguess, hm⟩

/-- The file index behind a file that fills its zones. -/
theorem nextZone_sound (h : Sound dev.bs fs.disk inode) (hsize : inode.size.toNat = i * dev.bs) :
    Ensures ∅ (At fs) (nextZone dev inode) fun z m => z.toNat = i ∧ At fs m := by
  have hpos := h.layout.pos
  unfold nextZone
  by_cases hzero : inode.size = 0
  · rw [if_pos hzero]
    rw [hzero] at hsize
    have hi : i = 0 := (Nat.mul_eq_zero.mp hsize.symm).resolve_right hpos.ne'
    exact ensures_pure _ fun m hm => ⟨hi.symm, hm⟩
  rw [if_neg hzero]
  have hi : 0 < i := by
    apply Nat.pos_of_ne_zero
    rintro rfl
    rw [Nat.zero_mul] at hsize
    exact hzero (BitVec.eq_of_toNat_eq hsize)
  apply (getLastFileZone_sound h).bind
  intro last
  apply Ensures.given
  intro hlast
  have hdiv : (i * dev.bs - 1) / dev.bs = i - 1 := by
    obtain ⟨l, rfl⟩ := Nat.exists_eq_succ_of_ne_zero hi.ne'
    rw [Nat.succ_sub_one]
    apply Nat.div_eq_of_lt_le <;> rw [Nat.succ_mul] <;> omega
  rw [hsize, hdiv] at hlast
  have hlt : i < 2 ^ 32 := by
    have := inode.size.isLt
    have := Nat.le_mul_of_pos_right i hpos
    omega
  apply ensures_pure
  intro m hm
  refine ⟨?_, hm⟩
  rw [CursorSearch.succ_toNat (by omega), hlast, Nat.sub_add_cancel hi]

theorem appendZone_sound (h : Sound dev.bs fs.disk inode) (hsize : inode.size.toNat = i * dev.bs)
    (hi : i < blockStart dev.bs (1 + ppz dev.bs))
    (hfree : FreeAhead dev.bs fs (k + blockCost dev.bs i + 1)) :
    ∃ z w, ZoneAppended dev.bs fs inode i k z w ∧
      Ensures ∅ (At fs) (appendZone dev inode) fun p m =>
        p = (w.inode, baddr dev.bs z) ∧ At w.fs m := by
  obtain ⟨z, w, ha⟩ := zone_appended h.layout h.distinct h.marked h.whole hi hsize hfree
  refine ⟨z, w, ha, ?_⟩
  have hget : Ensures ∅ (At fs) (getAvailableZone dev) fun a m => a = z ∧
      At { fs with disk := Minix3.setZoneToZero dev.bs fs.disk z, zoneCursor := z } m := by
    apply getAvailableZone_computes.ensures
    rintro m rfl
    rw [ha.available]
    exact ⟨_, _, rfl, rfl, rfl⟩
  apply (nextZone_sound h hsize).bind
  intro next_zone
  apply Ensures.given
  intro hnext
  apply hget.step
  apply (writing_ensures (setZoneAs_computes z true)).bind
  intro _
  have hset : Ensures ∅ (At (fs.taking dev.bs z)) (setZoneTo dev inode next_zone.toNat z)
      fun p m => p = (w.inode, z) ∧ At w.fs m := by
    have hwalker : Ensures ∅ (At (fs.taking dev.bs z))
        (zoneWalker dev inode next_zone.toNat (some z)) fun p m => p = (w, z) ∧ At w.fs m := by
      apply (zoneWalker_computes inode next_zone.toNat (some z)).ensures
      intro m hm
      have hwalk := ha.walk
      rw [← hm, ← hnext] at hwalk
      exact ⟨_, _, walking_eq hwalk, rfl, rfl⟩
    apply hwalker.step
    exact ensures_pure _ fun m hm => ⟨rfl, hm⟩
  apply hset.step
  apply ensures_pure
  intro m hm
  have haddress := baddr32_eq ((ha.grown.writes.layout h.layout).baddr_lt ha.range)
  exact ⟨by rw [haddress], hm⟩

/-- Of `total` bytes the first `done` are in the file and the others left, with free zones for
these and `k` more. -/
structure Writing (bs : ℕ) (fs₀ : Fs) (inode₀ : Inode) (data : Mem) (total k done : ℕ) (fs : Fs)
    (a : Append) : Prop where
  longer : LongerBy bs fs₀ inode₀ (listed data done) fs a.node
  left : done + a.size.toNat = total
  buffer : a.buffer = window data done
  free : FreeAhead bs fs (k + growCost bs a.node.size.toNat a.size.toNat)

namespace Writing

variable {bs total k done len o : ℕ} {data : Mem} {a : Append} {fs' : Fs} {node : Inode}

/-- The next bytes are in the file. -/
theorem advance (hw : Writing bs fs₀ inode₀ data total k done fs a) {write_size : Word}
    (hle : write_size.toNat ≤ a.size.toNat)
    (hb : LongerBy bs fs₀ inode₀ (listed data done ++ listed a.buffer write_size.toNat) fs'
      { node with size := node.size + write_size })
    (hfree : FreeAhead bs fs' (k + growCost bs (node.size + write_size).toNat
      (a.size.toNat - write_size.toNat))) :
    Writing bs fs₀ inode₀ data total k (done + write_size.toNat) fs'
      ({ a with node }.written write_size) := by
  have hsub : (a.size - write_size).toNat = a.size.toNat - write_size.toNat :=
    BitVec.toNat_sub_of_le hle
  have hleft := hw.left
  refine ⟨?_, ?_, ?_, ?_⟩
  · rw [listed_add, ← hw.buffer]
    exact hb
  · change done + write_size.toNat + (a.size - write_size).toNat = total
    omega
  · funext x
    change window a.buffer write_size.toNat x = _
    rw [hw.buffer]
    simp only [window, Nat.add_assoc]
  · change FreeAhead bs fs' (k + growCost bs (node.size + write_size).toNat
      (a.size - write_size).toNat)
    rwa [hsub]

end Writing

/-- Either nothing is left or the file fills its zones. -/
def Full (bs : ℕ) (a : Append) : Prop := a.size = 0 ∨ ∃ i, a.node.size.toNat = i * bs

/-- An empty file is left alone; otherwise the rest of the last zone is written, as far as the
bytes go. -/
theorem fillBlock_writes {data : Mem} {size : Word} (h : Sound dev.bs fs.disk inode)
    (hi : i = (inode.size.toNat - 1) / dev.bs) :
    Ensures ∅ (At fs) (fillBlock dev (baddr dev.bs (fileZone dev.bs fs.disk inode i))
        (inode.size.toNat - i * dev.bs) ⟨inode, data, size⟩) fun a m =>
      (inode.size.toNat = 0 ∧ a = ⟨inode, data, size⟩ ∧ At fs m) ∨
      ∃ o write_size, 0 < o ∧ o + write_size.toNat ≤ dev.bs ∧
        inode.size.toNat = i * dev.bs + o ∧ write_size.toNat ≤ size.toNat ∧
        (write_size.toNat = dev.bs - o ∨ write_size = size) ∧
        a = Append.written ⟨inode, data, size⟩ write_size ∧
        At (fs.withDisk (written dev.bs fs.disk (fileZone dev.bs fs.disk inode i) o
          write_size.toNat data)) m := by
  have hpos := h.layout.pos
  unfold fillBlock
  by_cases hzero : inode.size = 0
  · -- an empty file has no zone
    have hsize : inode.size.toNat = 0 := by rw [hzero]; rfl
    have hnone : fileZone dev.bs fs.disk inode i = 0 := by
      rw [hi, hsize, Nat.zero_sub, Nat.zero_div]
      by_contra hne
      have hin : (Node.data 0).In dev.bs :=
        data_in_front (Nat.lt_of_lt_of_le (by decide : 0 < 7) (Nat.le_add_right 7 _))
      have hlt := (h.whole.mapped 0 hin).mp hne
      omega
    have haddress : baddr dev.bs (fileZone dev.bs fs.disk inode i) = 0 := by
      rw [hnone, baddr]
      exact Nat.zero_mul _
    rw [if_neg (not_not.mpr haddress)]
    exact ensures_pure _ fun m hm => Or.inl ⟨hsize, rfl, hm⟩
  have hlast : 0 < inode.size.toNat :=
    Nat.pos_of_ne_zero fun he => hzero (BitVec.eq_of_toNat_eq he)
  have hsum := Nat.div_add_mod (inode.size.toNat - 1) dev.bs
  have hmod := Nat.mod_lt (inode.size.toNat - 1) hpos
  rw [Nat.mul_comm, ← hi] at hsum
  have hlt : i * dev.bs < inode.size.toNat := by omega
  have hr := h.zone_in_range hlt
  have haddress := h.address_ne_zero hlt
  rw [if_pos haddress]
  obtain ⟨o, ho⟩ : ∃ o, inode.size.toNat - i * dev.bs = o := ⟨_, rfl⟩
  rw [ho]
  have hsize : inode.size.toNat = i * dev.bs + o := by omega
  have hend := h.end_lt hlt
  rw [Nat.succ_mul] at hend
  have hrest : (BitVec.ofNat 32 dev.bs - BitVec.ofNat 32 o).toNat = dev.bs - o := by
    have hbs : (BitVec.ofNat 32 dev.bs).toNat = dev.bs := by
      rw [BitVec.toNat_ofNat]
      exact Nat.mod_eq_of_lt (by omega)
    have hoff : (BitVec.ofNat 32 o).toNat = o := by
      rw [BitVec.toNat_ofNat]
      exact Nat.mod_eq_of_lt (by omega)
    rw [BitVec.toNat_sub_of_le (by rw [BitVec.le_def, hbs, hoff]; omega), hbs, hoff]
  simp only [BitVec.lt_def, hrest]
  generalize hv : (if dev.bs - o < size.toNat then
    BitVec.ofNat 32 dev.bs - BitVec.ofNat 32 o else size) = write_size
  have hwrite : o + write_size.toNat ≤ dev.bs ∧ write_size.toNat ≤ size.toNat ∧
      (write_size.toNat = dev.bs - o ∨ write_size = size) := by
    rw [← hv]
    split_ifs
    · rw [hrest]
      omega
    · exact ⟨by omega, le_rfl, Or.inr rfl⟩
  obtain ⟨hroom, hle, hcases⟩ := hwrite
  apply (writing_ensures (blockWriteArbitrary_computes _ _ _)).bind
  intro _
  exact ensures_pure _ fun m hm =>
    Or.inr ⟨o, write_size, by omega, hroom, hsize, hle, hcases, rfl, hm⟩

theorem fillBlock_sound {data : Mem} {size : Word} (h : Sound dev.bs fs.disk inode)
    (hi : i = (inode.size.toNat - 1) / dev.bs)
    (hfree : FreeAhead dev.bs fs (k + growCost dev.bs inode.size.toNat size.toNat)) :
    Ensures ∅ (At fs) (fillBlock dev (baddr dev.bs (fileZone dev.bs fs.disk inode i))
        (inode.size.toNat - i * dev.bs) ⟨inode, data, size⟩) fun a m =>
      ∃ done, Writing dev.bs fs inode data size.toNat k done m.fs a ∧ Full dev.bs a := by
  have hpos := h.layout.pos
  have hstart : Writing dev.bs fs inode data size.toNat k 0 fs ⟨inode, data, size⟩ :=
    ⟨.refl h, Nat.zero_add _, by funext x; simp [window], hfree⟩
  apply (fillBlock_writes h hi).weaken
  rintro a m (⟨hsize, rfl, hm⟩ | ⟨o, write_size, ho, hroom, hsize, hle, hcases, rfl, hm⟩)
  · rw [hm]
    exact ⟨0, hstart, Or.inr ⟨0, by rw [hsize, Nat.zero_mul]⟩⟩
  have hlt : i * dev.bs < inode.size.toNat := by omega
  have hend := h.end_lt hlt
  rw [Nat.succ_mul] at hend
  have hb : LongerBy dev.bs fs inode (listed data 0 ++ listed data write_size.toNat)
      (fs.withDisk (written dev.bs fs.disk (fileZone dev.bs fs.disk inode i) o write_size.toNat
        data))
      { inode with size := inode.size + write_size } :=
    (LongerBy.refl h).fill h.layout ho hroom hsize rfl
  have hnew : (inode.size + write_size).toNat = inode.size.toNat + write_size.toNat := by
    rw [BitVec.toNat_add]
    exact Nat.mod_eq_of_lt (by omega)
  rw [hm]
  refine ⟨0 + write_size.toNat, hstart.advance hle hb ?_, ?_⟩
  · rw [hnew]
    have hcost := growCost_add dev.bs inode.size.toNat write_size.toNat
      (size.toNat - write_size.toNat)
    rw [Nat.add_sub_cancel' hle, hsize, growCost_fill ho hroom, ← hsize, Nat.zero_add]
      at hcost
    rw [← hcost]
    exact hfree.written h.layout (h.zone_in_range hlt) data
  · rcases hcases with hfull | rfl
    · refine Or.inr ⟨i + 1, ?_⟩
      change (inode.size + write_size).toNat = _
      rw [hnew, Nat.succ_mul]
      omega
    · exact Or.inl (sub_self _)

/-- The loop over whole blocks. -/
theorem appendBlocks_sound {data : Mem} {total done : ℕ} {a : Append}
    (hl : ZoneLayout dev.bs fs₀.disk)
    (hw : Writing dev.bs fs₀ inode₀ data total k done fs a) (hfull : Full dev.bs a)
    (hlimit : inode₀.size.toNat + total ≤ blockStart dev.bs (1 + ppz dev.bs) * dev.bs)
    (hn : a.size.toNat < n) :
    Ensures ∅ (At fs) (appendBlocks dev n a) fun node m =>
      LongerBy dev.bs fs₀ inode₀ (listed data total) m.fs node ∧ FreeAhead dev.bs m.fs k := by
  have hpos := hl.pos
  induction n generalizing fs a done with
  | zero => omega
  | succ n ih =>
    unfold appendBlocks
    by_cases hzero : a.size = 0
    · rw [if_pos hzero]
      have hsize : a.size.toNat = 0 := by rw [hzero]; rfl
      have hdone := hw.left
      rw [hsize, Nat.add_zero] at hdone
      have hfree := hw.free.mono (Nat.le_add_right k _)
      apply ensures_pure
      rintro m rfl
      exact ⟨hdone ▸ hw.longer, hfree⟩
    rw [if_neg hzero]
    obtain ⟨i, hi⟩ := hfull.resolve_left hzero
    have hleft : 0 < a.size.toNat :=
      Nat.pos_of_ne_zero fun he => hzero (BitVec.eq_of_toNat_eq he)
    have hsound := hw.longer.sound hl
    have hsize := hw.longer.size
    rw [length_listed] at hsize
    have htotal := hw.left
    have hfront : i < blockStart dev.bs (1 + ppz dev.bs) := by
      refine Nat.lt_of_mul_lt_mul_right (?_ : i * dev.bs < _)
      omega
    -- the next block takes `len` bytes
    obtain ⟨len, hlen⟩ : ∃ len, min dev.bs a.size.toNat = len := ⟨_, rfl⟩
    have hcost := growCost_add dev.bs (i * dev.bs) len (a.size.toNat - len)
    have hblock : growCost dev.bs (i * dev.bs) len = blockCost dev.bs i + 1 :=
      growCost_block (by omega) (by omega) i
    rw [Nat.add_sub_cancel' (by omega), hblock] at hcost
    have hfree := hw.free
    rw [hi, hcost] at hfree
    obtain ⟨z, w, ha, hcall⟩ := appendZone_sound (k := k + growCost dev.bs (i * dev.bs + len)
      (a.size.toNat - len)) hsound hi hfront (hfree.mono (by omega))
    have hend := ha.end_lt hsound.layout
    rw [Nat.succ_mul] at hend
    have hbs : (BitVec.ofNat 32 dev.bs).toNat = dev.bs := by
      rw [BitVec.toNat_ofNat]
      exact Nat.mod_eq_of_lt (by omega)
    apply hcall.step
    dsimp only
    generalize hv : (if BitVec.ofNat 32 dev.bs < a.size then BitVec.ofNat 32 dev.bs else a.size)
      = write_size
    have hwrite : write_size.toNat = len ∧ (len = dev.bs ∨ write_size = a.size) := by
      rw [← hv]
      simp only [BitVec.lt_def, hbs]
      split_ifs
      · exact ⟨by rw [hbs]; omega, Or.inl (by omega)⟩
      · exact ⟨by omega, Or.inr rfl⟩
    obtain ⟨rfl, hcases⟩ := hwrite
    have hb : LongerBy dev.bs fs₀ inode₀ (listed data done ++ listed a.buffer write_size.toNat)
        (w.fs.withDisk (written dev.bs w.fs.disk z 0 write_size.toNat a.buffer))
        { w.inode with size := w.inode.size + write_size } :=
      hw.longer.block hl ha (by omega) (by omega) rfl
    have hnew : (w.inode.size + write_size).toNat = i * dev.bs + write_size.toNat := by
      have hsame : w.inode.size = a.node.size := by rw [ha.rest]
      rw [BitVec.toNat_add, hsame, hi]
      exact Nat.mod_eq_of_lt (by omega)
    apply (writing_ensures (blockWriteArbitrary_computes _ _ _)).bind
    intro _
    have hl' := ha.grown.writes.layout hsound.layout
    have hadvance := hw.advance (by omega) hb
      (by rw [hnew]; exact ha.free.written hl' ha.range a.buffer)
    apply ih hadvance
    · rcases hcases with hfull | rfl
      · refine Or.inr ⟨i + 1, ?_⟩
        change (w.inode.size + write_size).toNat = _
        rw [hnew, Nat.succ_mul, hfull]
      · exact Or.inl (sub_self _)
    · change (a.size - write_size).toNat < n
      rw [BitVec.toNat_sub_of_le (by rw [BitVec.le_def]; omega)]
      omega

/-- A call on a file without holes that stays in front of the triply indirect zones. -/
theorem appendToFile_sound {n : Word} {buffer : Mem} {size : Word} (hc : Consistent dev.bs fs.disk)
    (hn : InUse dev.bs fs.disk n) (hw : Whole dev.bs fs.disk (Minix3.getInode dev.bs fs.disk n))
    (hlimit : (Minix3.getInode dev.bs fs.disk n).size.toNat + size.toNat ≤
      blockStart dev.bs (1 + ppz dev.bs) * dev.bs)
    (hfree : FreeAhead dev.bs fs
      (k + growCost dev.bs (Minix3.getInode dev.bs fs.disk n).size.toNat size.toNat)) :
    Ensures ∅ (At fs) (appendToFile dev n buffer size) fun r m =>
      r = 0 ∧ AppendedTo dev.bs fs n (listed buffer size.toNat) m.fs ∧ FreeAhead dev.bs m.fs k := by
  have h := hc.sound hn hw
  apply Ensures.allocate
  intro f_inode _
  apply (getInode_ensures n).step
  dsimp only
  rw [if_neg (not_not.mpr rfl)]
  apply Ensures.allocate
  intro zone hzone
  apply (getLastFileZone_sound h).bind
  intro i
  apply Ensures.given
  intro hi
  apply (gzbars_sound h (lastZone_inside hi)).step
  apply (fillBlock_sound h hi hfree).bind
  intro a
  apply ensures_at (P := fun fs' => ∃ done, Writing dev.bs fs _ buffer size.toNat k done fs' a ∧
    Full dev.bs a)
  rintro fs' ⟨done, hwriting, hfull⟩
  have hleft : a.size.toNat < rounds := by
    have := a.size.isLt
    unfold rounds
    omega
  apply (appendBlocks_sound h.layout hwriting hfull hlimit hleft).bind
  intro node
  apply ensures_at (P := fun fs' => LongerBy dev.bs fs _ (listed buffer size.toNat) fs' node ∧
    FreeAhead dev.bs fs' k)
  rintro fs' ⟨hlonger, hfree'⟩
  have hsuper := hlonger.grown.writes.super h.layout
  have hin : InTable fs'.disk n := by
    rw [InTable, hsuper]
    exact hn.1
  apply Ensures.release hzone
  apply (putInode_ensures n node).bind
  intro _
  apply Ensures.release (Finset.notMem_empty f_inode)
  apply ensures_pure
  intro m hm
  rw [hm]
  exact ⟨rfl, hlonger.put hc hn, hfree'.put (hc.layout.congr hsuper) hin node⟩

end Call

/-! ## Runs of calls -/

/-- The arguments of `minix3_append_to_file`. -/
structure AppendCall where
  inode_num : Word
  buffer : Mem
  size : Word

/-- The calls one after the other. -/
def appendAll (dev : Mount) : List AppendCall → Op Unit
  | [] => pure ()
  | call :: calls => do
    let _ ← appendToFile dev call.inode_num call.buffer call.size
    appendAll dev calls

/-- What the calls append to file `n`. -/
def appended (n : Word) (calls : List AppendCall) : List Byte :=
  calls.flatMap fun call => if call.inode_num = n then listed call.buffer call.size.toNat else []

/-- The zones that the calls take, for files of these sizes. -/
def callsCost (bs : ℕ) : (Word → ℕ) → List AppendCall → ℕ
  | _, [] => 0
  | sizes, call :: calls =>
    growCost bs (sizes call.inode_num) call.size.toNat +
      callsCost bs (Function.update sizes call.inode_num
        (sizes call.inode_num + call.size.toNat)) calls

section Runs

variable {dev : Mount} {fs fs' : Fs} {k : ℕ} {n m : Word} {bytes : List Byte}
  {call : AppendCall} {calls : List AppendCall}

theorem appended_cons (n : Word) (call : AppendCall) (calls : List AppendCall) :
    appended n (call :: calls) =
      (if call.inode_num = n then listed call.buffer call.size.toNat else []) ++ appended n calls :=
  List.flatMap_cons

/-- Only the files that are written count. -/
theorem callsCost_congr {bs : ℕ} {sizes sizes' : Word → ℕ}
    (h : ∀ call ∈ calls, sizes call.inode_num = sizes' call.inode_num) :
    callsCost bs sizes calls = callsCost bs sizes' calls := by
  induction calls generalizing sizes sizes' with
  | nil => rfl
  | cons call calls ih =>
    have hfirst := h call (List.mem_cons_self)
    simp only [callsCost, hfirst]
    congr 1
    apply ih
    intro c hc
    by_cases heq : c.inode_num = call.inode_num
    · rw [heq, Function.update_self, Function.update_self]
    · rw [Function.update_of_ne heq, Function.update_of_ne heq]
      exact h c (List.mem_cons_of_mem _ hc)

/-- The calls are on files without holes, which stay in front of the triply indirect zones. -/
def Fits (bs : ℕ) (disk : Mem) (calls : List AppendCall) : Prop :=
  ∀ call ∈ calls, InUse bs disk call.inode_num ∧
    Whole bs disk (Minix3.getInode bs disk call.inode_num) ∧
    fileSize bs disk call.inode_num + (appended call.inode_num calls).length ≤
      blockStart bs (1 + ppz bs) * bs

/-- What all calls leave. -/
structure AppendedAll (bs : ℕ) (fs : Fs) (calls : List AppendCall) (fs' : Fs) : Prop where
  consistent : Consistent bs fs'.disk
  inUse : ∀ m, InUse bs fs'.disk m ↔ InUse bs fs.disk m
  file : ∀ m, InUse bs fs.disk m → Whole bs fs.disk (Minix3.getInode bs fs.disk m) →
    Whole bs fs'.disk (Minix3.getInode bs fs'.disk m) ∧
      contents bs fs'.disk (Minix3.getInode bs fs'.disk m) =
        contents bs fs.disk (Minix3.getInode bs fs.disk m) ++ appended m calls

theorem appendAll_sound (hc : Consistent dev.bs fs.disk) (hfits : Fits dev.bs fs.disk calls)
    (hfree : FreeAhead dev.bs fs (k + callsCost dev.bs (fileSize dev.bs fs.disk) calls)) :
    Ensures ∅ (At fs) (appendAll dev calls) fun _ m =>
      AppendedAll dev.bs fs calls m.fs ∧ FreeAhead dev.bs m.fs k := by
  induction calls generalizing fs with
  | nil =>
    apply ensures_pure
    rintro m rfl
    exact ⟨⟨hc, fun _ => Iff.rfl, fun n _ hw => ⟨hw, (List.append_nil _).symm⟩⟩, hfree⟩
  | cons call calls ih =>
    obtain ⟨hn, hw, hlimit⟩ := hfits call List.mem_cons_self
    rw [appended_cons, if_pos rfl, List.length_append, length_listed] at hlimit
    rw [callsCost, Nat.add_comm (growCost _ _ _), ← Nat.add_assoc] at hfree
    apply (appendToFile_sound hc hn hw (by unfold fileSize at hlimit; omega) hfree).bind
    intro _
    apply ensures_at (P := fun fs' => _ = 0 ∧ AppendedTo dev.bs fs call.inode_num
      (listed call.buffer call.size.toNat) fs' ∧ FreeAhead dev.bs fs' (k + callsCost dev.bs
        (Function.update (fileSize dev.bs fs.disk) call.inode_num
          (fileSize dev.bs fs.disk call.inode_num + call.size.toNat)) calls))
    rintro fs' ⟨-, ha, hfree'⟩
    have hsize (m : Word) (hm : InUse dev.bs fs.disk m)
        (hwm : Whole dev.bs fs.disk (Minix3.getInode dev.bs fs.disk m)) :
        fileSize dev.bs fs'.disk m = fileSize dev.bs fs.disk m +
          if call.inode_num = m then call.size.toNat else 0 := by
      rw [ha.fileSize hc hm hwm, length_listed]
    have hcost : callsCost dev.bs (Function.update (fileSize dev.bs fs.disk) call.inode_num
        (fileSize dev.bs fs.disk call.inode_num + call.size.toNat)) calls =
        callsCost dev.bs (fileSize dev.bs fs'.disk) calls := by
      apply callsCost_congr
      intro c hcalls
      obtain ⟨hin, hwhole, -⟩ := hfits c (List.mem_cons_of_mem _ hcalls)
      rw [hsize _ hin hwhole]
      by_cases heq : c.inode_num = call.inode_num
      · rw [heq, Function.update_self, if_pos rfl]
      · rw [Function.update_of_ne heq, if_neg (Ne.symm heq), Nat.add_zero]
    have hfits' : Fits dev.bs fs'.disk calls := by
      intro c hcalls
      obtain ⟨hin, hwhole, hroom⟩ := hfits c (List.mem_cons_of_mem _ hcalls)
      refine ⟨(ha.grew.inUse _).mpr hin, (ha.file hc hin hwhole).1, ?_⟩
      rw [appended_cons, List.length_append] at hroom
      rw [hsize _ hin hwhole]
      split_ifs at hroom ⊢ with heq
      · rw [length_listed] at hroom
        omega
      · simpa using hroom
    rw [hcost] at hfree'
    apply (ih ha.grew.consistent hfits' hfree').weaken
    rintro _ m ⟨hall, hk⟩
    refine ⟨⟨hall.consistent, fun m => (hall.inUse m).trans (ha.grew.inUse m),
      fun m hm hwm => ?_⟩, hk⟩
    obtain ⟨hw', hcont⟩ := ha.file hc hm hwm
    obtain ⟨hw'', hcont'⟩ := hall.file m ((ha.grew.inUse m).mpr hm) hw'
    exact ⟨hw'', by rw [hcont', hcont, appended_cons, List.append_assoc]⟩

end Runs

end FileOps

end Minix3
