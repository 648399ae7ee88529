import DucreuOS.FileContents
import DucreuOS.LeakedBlocks

/-! # Reading a file

`minix3_read_from_file` walks the tree once more for each zone and keeps its own count of what is
left. On a file without holes `minix3_read_whole_file` returns the contents. -/
namespace Minix3

open ByteMemory

/-- A file without holes on a device whose bitmap marks its zones. -/
structure Sound (bs : ℕ) (disk : Mem) (inode : Inode) : Prop where
  layout : ZoneLayout bs disk
  distinct : DistinctZones bs disk inode
  marked : MarkedZones bs disk inode
  whole : Whole bs disk inode

section Bounds

variable {bs j : ℕ} {disk : Mem} {inode : Inode}

/-- The first zones of a file are different zones of the device, and all lie below `2 ^ 32`. -/
theorem zones_end_lt (hl : ZoneLayout bs disk) (hd : DistinctZones bs disk inode)
    (hm : MarkedZones bs disk inode) (hj : j < blockStart bs (1 + ppz bs))
    (hz : ∀ k ≤ j, fileZone bs disk inode k ≠ 0) : (j + 1) * bs < 2 ^ 32 := by
  have hpos := hl.pos
  have hin (k : ℕ) (hk : k ≤ j) : (Node.data k).In bs := data_in_front (hk.trans_lt hj)
  have hcard : (Finset.range (j + 1)).card ≤ (Finset.Ico (getSuperblock disk).firstZone.toNat
      ((getSuperblock disk).firstZone.toNat + (getSuperblock disk).numZones.toNat)).card := by
    apply Finset.card_le_card_of_injOn fun k => (fileZone bs disk inode k).toNat
    · intro k hk
      have hk : k ≤ j := Nat.lt_succ_iff.mp (by simpa using hk)
      exact Finset.mem_coe.mpr (Finset.mem_Ico.mpr
        (inRange_iff.mp (hm (.data k) (hin k hk) (hz k hk)).1))
    · intro k hk l hl hkl
      have hk : k ≤ j := Nat.lt_succ_iff.mp (by simpa using hk)
      have hl : l ≤ j := Nat.lt_succ_iff.mp (by simpa using hl)
      exact Node.data.inj (hd (.data k) (.data l) (hin k hk) (hin l hl) (hz k hk)
        (BitVec.eq_of_toNat_eq hkl))
  rw [Finset.card_range, Nat.card_Ico, Nat.add_sub_cancel_left] at hcard
  have hzones := Nat.mul_le_mul_right bs hcard
  have hfirst := Nat.mul_le_mul_right bs hl.first_pos
  have haddressed := hl.addressed
  rw [Nat.add_mul] at haddressed
  omega

end Bounds

namespace Sound

variable {bs j : ℕ} {disk : Mem} {inode : Inode} (h : Sound bs disk inode)

include h

theorem front (hj : j * bs < inode.size.toNat) : j < blockStart bs (1 + ppz bs) :=
  Nat.mul_div_cancel j h.layout.pos ▸ h.whole.zone_index hj

theorem zone_ne_zero (hj : j * bs < inode.size.toNat) : fileZone bs disk inode j ≠ 0 :=
  (h.whole.mapped j (data_in_front (h.front hj))).mpr hj

theorem zone_in_range (hj : j * bs < inode.size.toNat) :
    isZoneInRange disk (fileZone bs disk inode j) = true :=
  (h.marked (.data j) (data_in_front (h.front hj)) (h.zone_ne_zero hj)).1

/-- Zone 0 is none of the data. -/
theorem address_ne_zero (hj : j * bs < inode.size.toNat) :
    baddr bs (fileZone bs disk inode j) ≠ 0 := by
  have hstart := ZoneLayout.dataStart_le bs (h.zone_in_range hj)
  have hfirst := Nat.mul_pos h.layout.first_pos h.layout.pos
  simp only [dataStart] at hstart
  omega

theorem end_lt (hj : j * bs < inode.size.toNat) : (j + 1) * bs < 2 ^ 32 :=
  zones_end_lt h.layout h.distinct h.marked (h.front hj) fun _ hk =>
    h.zone_ne_zero ((Nat.mul_le_mul_right bs hk).trans_lt hj)

theorem remaining (hj : j * bs < inode.size.toNat) :
    remainingAt bs inode (fileZone bs disk inode) j = inode.size.toNat - j * bs := by
  have hcount : Nat.count (fun k => fileZone bs disk inode k ≠ 0) j = j := by
    rw [Nat.count_iff_forall]
    intro k hk
    have hlt : k * bs < inode.size.toNat := (Nat.mul_le_mul_right bs hk.le).trans_lt hj
    exact h.zone_ne_zero hlt
  rw [remainingAt, hcount, Nat.mul_comm]

end Sound

theorem Consistent.sound {bs : ℕ} {disk : Mem} {n : Word} (hc : Consistent bs disk)
    (hn : InUse bs disk n) (hw : Whole bs disk (getInode bs disk n)) :
    Sound bs disk (getInode bs disk n) :=
  ⟨hc.layout.toZoneLayout, hc.distinct n hn, hc.marked n hn, hw⟩

namespace FileOps

open LiveBlocks

section Calls

variable (dev : Mount)

/-- What `minix3_read_from_zone` returns, and the buffer with the bytes from `target` on. -/
def readFromZone (f_inode : Inode) (zone_index : ℕ) (file_buffer : Mem) (target : ℕ) :
    Op (ℕ × Mem) := do
  let (zone_baddr, remaining_size) ← gzbars dev f_inode zone_index
  if zone_baddr = 0 then pure (1, file_buffer)
  else do
    let read_size := if remaining_size < dev.bs then remaining_size else dev.bs
    let bytes ← blockReadArbitrary dev zone_baddr read_size
    pure (0, blit file_buffer target read_size bytes)

/-- `while(size)` of `minix3_read_from_file`; a zone that could not be read is only reported. -/
def readZones (f_inode : Inode) (start_byte : Word) : ℕ → Mem → Word → Word → Op Mem
  | 0, _, _, _ => hang
  | n + 1, file_buffer, file_buffer_offset, size =>
    if size = 0 then pure file_buffer
    else do
      let target_zone := (start_byte + file_buffer_offset) / BitVec.ofNat 32 dev.bs
      let (_, file_buffer) ←
        readFromZone dev f_inode target_zone.toNat file_buffer file_buffer_offset.toNat
      if file_buffer_offset + start_byte + BitVec.ofNat 32 dev.bs < f_inode.size then
        readZones f_inode start_byte n file_buffer (file_buffer_offset + BitVec.ofNat 32 dev.bs)
          (size - BitVec.ofNat 32 dev.bs)
      else
        readZones f_inode start_byte n file_buffer file_buffer_offset
          (size - (f_inode.size - file_buffer_offset - start_byte))

/-- `NULL`, or a buffer of zeroes that has been filled. -/
def readFromFile (f_inode : Inode) (start_byte size : Word) : Op (Option Mem) :=
  if f_inode.size < start_byte then pure none
  else if f_inode.size < start_byte + size then pure none
  else if start_byte % BitVec.ofNat 32 dev.bs ≠ 0 then pure none
  else do
    let _file_buffer ← kcalloc dev
    let bytes ← readZones dev f_inode start_byte rounds (fun _ => 0) 0 size
    pure (some bytes)

def readWholeFile (f_inode : Inode) : Op (Option Mem) := readFromFile dev f_inode 0 f_inode.size

/-- The inode of a file and what `minix3_read_whole_file` returns for it. -/
def readFile (inode_num : Word) : Op (Inode × Option Mem) := do
  let (_, f_inode) ← getInode dev inode_num
  let file_buffer ← readWholeFile dev f_inode
  pure (f_inode, file_buffer)

/-- The file has this many bytes, and they are returned. -/
def Reads (h : Heap ℕ Machine) (inode_num : Word) (bytes : List Byte) : Prop :=
  ∃ f_inode file_buffer h', readFile dev inode_num h = .ok ((f_inode, some file_buffer), h') ∧
    f_inode.size.toNat = bytes.length ∧ listed file_buffer f_inode.size.toNat = bytes

end Calls

/-! ## A file without holes -/

section Reads

variable {dev : Mount} {fs : Fs} {inode : Inode} {i j n : ℕ}

/-- The machine with this device and these cursors. -/
def At (fs : Fs) (m : Machine) : Prop := m.fs = fs

theorem ensures_at {α : Type} {own : Finset ℕ} {P : Fs → Prop} {op : Op α}
    {Q : α → Machine → Prop} (h : ∀ fs, P fs → Ensures own (At fs) op Q) :
    Ensures own (fun m => P m.fs) op Q := fun heap hown hP => h heap.data.fs hP heap hown rfl

theorem reading_ensures {α : Type} {op : Op α} {f : Fs → α} (h : Computes ∅ op (reading f)) :
    Ensures ∅ (At fs) op fun a m => a = f fs ∧ At fs m := by
  apply h.ensures
  rintro m rfl
  exact ⟨_, _, rfl, rfl, rfl⟩

theorem writing_ensures {op : Op Unit} {f : Fs → Fs} (h : Computes ∅ op (writing f)) :
    Ensures ∅ (At fs) op fun _ => At (f fs) := by
  apply h.ensures
  rintro m rfl
  exact ⟨_, _, rfl, rfl⟩

theorem getSuperblock_ensures : Ensures ∅ (At fs) (getSuperblock dev) fun p m =>
    p.2 = Minix3.getSuperblock fs.disk ∧ At fs m := by
  obtain ⟨code, hread⟩ := blockReadWrite_read dev MX3_BOOT_BLOCK_SIZE
    (MX3_BOOT_BLOCK_SIZE + dev.sector)
  apply Ensures.allocate
  intro buffer _
  apply Ensures.bind
  · apply hread.ensures (Q := fun _ => At fs)
    exact fun m hm => ⟨code, m, rfl, hm⟩
  intro _
  apply (reading_ensures (computes_onData _)).bind
  intro super
  exact ensures_pure _ fun m hm => hm

/-- A transfer of an inode ends with code 0. -/
theorem inodeTransferCommon_ensures {α : Type} {transfer : ℕ → Op α}
    {Q : ℕ → α → Machine → Prop} (inode_num : Word)
    (h : ∀ inode_offset, Ensures ∅ (At fs) (transfer inode_offset) (Q inode_offset)) :
    Ensures ∅ (At fs) (inodeTransferCommon dev inode_num transfer) fun p m =>
      p.1 = 0 ∧ Q (inodeAddr dev.bs fs.disk inode_num) p.2 m := by
  apply getSuperblock_ensures.bind
  rintro ⟨buffer, sb⟩
  apply Ensures.given
  rintro rfl
  apply (h _).bind
  intro a
  exact ensures_pure _ fun m hm => ⟨rfl, hm⟩

theorem getInode_ensures (inode_num : Word) : Ensures ∅ (At fs) (getInode dev inode_num) fun p m =>
    p = (0, Minix3.getInode dev.bs fs.disk inode_num) ∧ At fs m := by
  have hread (inode_offset : ℕ) : Ensures ∅ (At fs) (do
      let buffer ← blockReadArbitrary dev inode_offset inodeSize
      pure (Inode.load buffer 0)) fun node m =>
        node = Inode.load fs.disk inode_offset ∧ At fs m := by
    apply (reading_ensures (blockReadArbitrary_computes _ _)).bind
    intro buffer
    apply Ensures.given
    rintro rfl
    apply ensures_pure
    refine fun m hm => ⟨inode_load_congr fun i _ => ?_, hm⟩
    rw [window, Nat.zero_add]
  exact (inodeTransferCommon_ensures inode_num hread).weaken
    fun p m h => ⟨Prod.ext h.1 h.2.1, h.2.2⟩

theorem putInode_ensures (inode_num : Word) (inode : Inode) :
    Ensures ∅ (At fs) (putInode dev inode_num inode) fun _ =>
      At (fs.withDisk (Minix3.putInode dev.bs fs.disk inode_num inode)) := by
  have hwrite (inode_offset : ℕ) : Ensures ∅ (At fs)
      (blockWriteArbitrary dev inode.bytes inode_offset inodeSize) fun _ =>
      At (fs.withDisk (blit fs.disk inode_offset inodeSize inode.bytes)) :=
    writing_ensures (blockWriteArbitrary_computes _ _ _)
  exact (inodeTransferCommon_ensures inode_num hwrite).weaken fun p m h => h.2

/-- The walk and the way to `freeall`; a walk that assigns nothing returns what the stack holds. -/
theorem walking_eq {bs : ℕ} {set : Option Word} {w : Walk} {zone : Option Word} {m : Machine}
    (h : Minix3.zoneWalker bs m.fs inode i set = some (w, zone)) :
    walking bs inode i set m =
      some ((w, zone.getD (load32 (m.unknown 0) 0)), { m.next with fs := w.fs }) := by
  unfold Minix3.zoneWalker at h
  unfold walking
  split at h <;> rename_i hwalk
  · cases h
    rw [hwalk]
    rfl
  · cases h
    rw [hwalk]
    rfl
  · cases h

/-- The remaining size a look-up reports: behind the last index of a file it stays the same. -/
def reportedSize (bs : ℕ) (disk : Mem) (inode : Inode) (i : ℕ) : ℕ :=
  remainingAt bs inode (walkedZone bs disk inode) (min i (blockStart bs (blocks bs)))

/-- A look-up in any file ends and changes nothing. -/
theorem walking_reports {bs : ℕ} (hppz : 0 < ppz bs) (inode : Inode) (i : ℕ) (m : Machine) :
    ∃ w zone, walking bs inode i none m = some ((w, zone), m.next) ∧
      w.remaining = reportedSize bs m.fs.disk inode i := by
  classical
  by_cases hread : ∃ j, i ≤ j ∧ j < blockStart bs (blocks bs) ∧
      Present bs (walkedBlock bs m.fs.disk inode) j
  · obtain ⟨hj, hj', hp⟩ := Nat.find_spec hread
    have hfirst : ∀ k, i ≤ k → k < Nat.find hread →
        ¬ Present bs (walkedBlock bs m.fs.disk inode) k :=
      fun k hk hk' hpk => Nat.find_min hread hk' ⟨hk, hk'.trans hj', hpk⟩
    refine ⟨_, _, walking_eq (zoneWalker_found hj hj' hp hfirst), ?_⟩
    rw [reportedSize, Nat.min_eq_left (hj.trans hj'.le)]
    exact @remainingAt_absent bs m.fs inode _ _ _ _ hj hfirst
  · have hnone : ∀ k, i ≤ k → k < blockStart bs (blocks bs) →
        ¬ Present bs (walkedBlock bs m.fs.disk inode) k :=
      fun k hk hk' hpk => hread ⟨k, hk, hk', hpk⟩
    refine ⟨_, _, walking_eq (zoneWalker_none hppz hnone), ?_⟩
    rcases Nat.le_total i (blockStart bs (blocks bs)) with hi | hi
    · rw [reportedSize, Nat.min_eq_left hi]
      exact @remainingAt_absent bs m.fs inode _ _ _ _ hi hnone
    · rw [reportedSize, Nat.min_eq_right hi]
      rfl

theorem gzbars_reports (hppz : 0 < ppz dev.bs) (inode : Inode) (i : ℕ) :
    Ensures ∅ (At fs) (gzbars dev inode i) fun p m =>
      p.2 = reportedSize dev.bs fs.disk inode i ∧ At fs m := by
  apply (gzbars_computes inode i).ensures
  rintro m rfl
  obtain ⟨w, zone, hwalk, hremaining⟩ := walking_reports hppz inode i m
  refine ⟨(baddr dev.bs zone, w.remaining), m.next, ?_, hremaining, rfl⟩
  change (walking dev.bs inode i none m >>= _) = _
  rw [hwalk]
  rfl

theorem gzbars_ensures (hppz : 0 < ppz dev.bs) (inode : Inode) (i : ℕ) :
    Ensures ∅ (At fs) (gzbars dev inode i) fun _ => At fs :=
  (gzbars_reports hppz inode i).weaken fun _ _ h => h.2

/-- Address and remaining size at an index of the file, or at the first of an empty one. -/
theorem locating_sound {bs : ℕ} {m : Machine} (h : Sound bs m.fs.disk inode)
    (hi : i * bs < inode.size.toNat ∨ i = 0) :
    locating bs inode i m = some ((baddr bs (fileZone bs m.fs.disk inode i),
      inode.size.toNat - i * bs), m.next) := by
  have ha := addressable h.layout h.marked
  have hfront : i < blockStart bs (1 + ppz bs) := by
    rcases hi with hi | rfl
    · exact h.front hi
    · exact Nat.lt_of_lt_of_le (by decide : 0 < 7) (Nat.le_add_right 7 _)
  have hpresent : Present bs (pointerBlock bs m.fs.disk inode) i := by
    rcases hi with hi | rfl
    · by_contra habsent
      exact h.zone_ne_zero hi (zoneUnder_absent habsent)
    · exact fun h7 => absurd h7 (by decide)
  have hremaining : remainingAt bs inode (fileZone bs m.fs.disk inode) i
      = inode.size.toNat - i * bs := by
    rcases hi with hi | rfl
    · exact h.remaining hi
    · simp [remainingAt]
  have hwalk := walking_eq (zoneWalker_present ha hfront hpresent)
  rw [hremaining] at hwalk
  change (walking bs inode i none m >>= _) = _
  rw [hwalk]
  rfl

theorem gzbars_sound (h : Sound dev.bs fs.disk inode)
    (hi : i * dev.bs < inode.size.toNat ∨ i = 0) :
    Ensures ∅ (At fs) (gzbars dev inode i) fun p m =>
      p = (baddr dev.bs (fileZone dev.bs fs.disk inode i), inode.size.toNat - i * dev.bs) ∧
        At fs m := by
  apply (gzbars_computes inode i).ensures
  rintro m rfl
  exact ⟨_, _, locating_sound h hi, rfl, rfl⟩

/-- The first `k` bytes of a buffer are those of the file from `start` on; the rest is as `behind`
had it. -/
structure Filled (bs : ℕ) (fs : Fs) (inode : Inode) (start k : ℕ) (behind bytes : Mem) : Prop where
  inside (x : ℕ) : x < k → bytes x = fs.disk (byteAddr bs fs.disk inode (start + x))
  outside (x : ℕ) : k ≤ x → bytes x = behind x

theorem byteAddr_in_zone {bs x : ℕ} {disk : Mem} (hx : i * bs ≤ x) (hx' : x < i * bs + bs) :
    byteAddr bs disk inode x = baddr bs (fileZone bs disk inode i) + (x - i * bs) := by
  have hdiv : x / bs = i := Nat.div_eq_of_lt_le hx (by rw [Nat.succ_mul]; omega)
  have hmod : x % bs = x - i * bs := by
    have hsum := Nat.div_add_mod x bs
    rw [hdiv, Nat.mul_comm] at hsum
    omega
  simp only [byteAddr, hdiv, hmod]

/-- One zone of the file, up to the end of the file, in the buffer at `target`. -/
theorem readFromZone_ensures (h : Sound dev.bs fs.disk inode) (hi : i * dev.bs < inode.size.toNat)
    (file_buffer : Mem) (target : ℕ) :
    Ensures ∅ (At fs) (readFromZone dev inode i file_buffer target) fun p m =>
      p = (0, blit file_buffer target (min (inode.size.toNat - i * dev.bs) dev.bs)
        (window fs.disk (baddr dev.bs (fileZone dev.bs fs.disk inode i)))) ∧ At fs m := by
  have hpos := h.layout.pos
  have haddress := h.address_ne_zero hi
  apply (gzbars_sound h (Or.inl hi)).step
  simp only [if_neg haddress]
  have hsize : (if inode.size.toNat - i * dev.bs < dev.bs then inode.size.toNat - i * dev.bs
      else dev.bs) = min (inode.size.toNat - i * dev.bs) dev.bs := by
    rw [Nat.min_def]
    split_ifs <;> omega
  rw [hsize]
  apply (reading_ensures (blockReadArbitrary_computes _ _)).bind
  intro bytes
  apply ensures_pure
  rintro m ⟨rfl, hm⟩
  exact ⟨rfl, hm⟩

theorem Filled.zone {bs start k : ℕ} {behind bytes : Mem}
    (hf : Filled bs fs inode start k behind bytes) (hi : start + k = i * bs) {read_size : ℕ}
    (hread : read_size ≤ bs) : Filled bs fs inode start (k + read_size) behind
      (blit bytes k read_size (window fs.disk (baddr bs (fileZone bs fs.disk inode i)))) := by
  refine ⟨fun x hx => ?_, fun x hx => ?_⟩
  · by_cases hlt : x < k
    · rw [blit_outside (Or.inl hlt), hf.inside x hlt]
    · rw [blit_inside (by omega) hx, byteAddr_in_zone (i := i) (by omega) (by omega), window]
      congr 2
      omega
  · rw [blit_outside (Or.inr hx), hf.outside x (by omega)]

/-- The address arithmetic of the loop, in the round for zone `s + k`. -/
theorem round_words (h : Sound dev.bs fs.disk inode) {s k : ℕ} {start_byte offset : Word}
    (hs : start_byte.toNat = s * dev.bs) (ho : offset.toNat = k * dev.bs)
    (hi : (s + k) * dev.bs < inode.size.toNat) :
    (BitVec.ofNat 32 dev.bs).toNat = dev.bs ∧
    ((start_byte + offset) / BitVec.ofNat 32 dev.bs).toNat = s + k ∧
    (offset + start_byte + BitVec.ofNat 32 dev.bs).toNat = (s + k + 1) * dev.bs ∧
    (offset + BitVec.ofNat 32 dev.bs).toNat = (k + 1) * dev.bs := by
  have hlast := h.end_lt hi
  simp only [Nat.add_mul, Nat.one_mul] at hlast ⊢
  have hbs : (BitVec.ofNat 32 dev.bs).toNat = dev.bs := by
    rw [BitVec.toNat_ofNat]
    exact Nat.mod_eq_of_lt (by omega)
  have hstart : (start_byte + offset).toNat = (s + k) * dev.bs := by
    rw [BitVec.toNat_add, hs, ho, Nat.add_mul]
    exact Nat.mod_eq_of_lt (by omega)
  refine ⟨hbs, ?_, ?_, ?_⟩
  · rw [BitVec.toNat_udiv, hstart, hbs, Nat.mul_div_cancel _ h.layout.pos]
  · rw [BitVec.toNat_add, BitVec.toNat_add, hs, ho, hbs]
    omega
  · rw [BitVec.toNat_add, ho, hbs]
    omega

/-- Whole zones, or up to the end of the file: the loop ends with the range in the buffer. -/
theorem readZones_sound (h : Sound dev.bs fs.disk inode) {s k l : ℕ}
    {start_byte offset size : Word} {behind file_buffer : Mem}
    (hs : start_byte.toNat = s * dev.bs) (ho : offset.toNat = k * dev.bs)
    (hsize : size.toNat + k * dev.bs = l) (hlen : s * dev.bs + l ≤ inode.size.toNat)
    (hend : dev.bs ∣ l ∨ s * dev.bs + l = inode.size.toNat) (hn : size.toNat < n)
    (hfill : Filled dev.bs fs inode (s * dev.bs) (k * dev.bs) behind file_buffer) :
    Ensures ∅ (At fs) (readZones dev inode start_byte n file_buffer offset size) fun bytes m =>
      Filled dev.bs fs inode (s * dev.bs) l behind bytes ∧ At fs m := by
  have hpos := h.layout.pos
  induction n generalizing k file_buffer offset size with
  | zero => omega
  | succ n ih =>
    unfold readZones
    by_cases hzero : size = 0
    · rw [if_pos hzero]
      rw [hzero] at hsize
      obtain rfl : k * dev.bs = l := (Nat.zero_add _).symm.trans hsize
      exact ensures_pure _ fun m hm => ⟨hfill, hm⟩
    rw [if_neg hzero]
    have hne : size.toNat ≠ 0 := fun he => hzero (BitVec.eq_of_toNat_eq he)
    have hi : (s + k) * dev.bs < inode.size.toNat := by
      rw [Nat.add_mul]
      omega
    obtain ⟨hbs, htarget, hnext, hnext'⟩ := round_words h hs ho hi
    simp only [htarget, ho]
    apply (readFromZone_ensures h hi file_buffer (k * dev.bs)).step
    have hread := hfill.zone (i := s + k) (Nat.add_mul _ _ _).symm
      (Nat.min_le_right (inode.size.toNat - (s + k) * dev.bs) dev.bs)
    have hlt : offset + start_byte + BitVec.ofNat 32 dev.bs < inode.size ↔
        (s + k + 1) * dev.bs < inode.size.toNat := by
      rw [BitVec.lt_def, hnext]
    have hzones (c : ℕ) (hc : l = dev.bs * c) : (k + 1) * dev.bs ≤ l := by
      have hck : k < c := by
        apply Nat.lt_of_mul_lt_mul_left (a := dev.bs)
        rw [Nat.mul_comm dev.bs k]
        omega
      rw [hc, Nat.mul_comm dev.bs c]
      exact Nat.mul_le_mul_right _ hck
    simp only [Nat.add_mul, Nat.one_mul] at hlt hi hread hzones hnext'
    dsimp only
    rw [Nat.add_mul s k dev.bs]
    by_cases hmore : offset + start_byte + BitVec.ofNat 32 dev.bs < inode.size
    · rw [if_pos hmore]
      rw [hlt] at hmore
      have hle : k * dev.bs + dev.bs ≤ l := by
        rcases hend with ⟨c, hc⟩ | hend
        · exact hzones c hc
        · omega
      have hrest : (size - BitVec.ofNat 32 dev.bs).toNat + (k * dev.bs + dev.bs) = l := by
        have := size.isLt
        rw [BitVec.toNat_sub, hbs]
        omega
      rw [Nat.min_eq_right (by omega)] at hread ⊢
      refine ih (k := k + 1) ?_ ?_ ?_ ?_
      · rw [hnext', Nat.succ_mul]
      · rw [Nat.succ_mul, hrest]
      · omega
      · rwa [Nat.succ_mul]
    · -- the last zone: nothing is left
      rw [if_neg hmore]
      rw [hlt] at hmore
      have hfull : s * dev.bs + l = inode.size.toNat := by
        rcases hend with ⟨c, hc⟩ | hend
        · have := hzones c hc
          omega
        · exact hend
      have hrest : inode.size - offset - start_byte = size := by
        apply BitVec.eq_of_toNat_eq
        have := inode.size.isLt
        rw [BitVec.toNat_sub, BitVec.toNat_sub, ho, hs]
        omega
      rw [hrest, sub_self]
      have hread_len : k * dev.bs + min (inode.size.toNat - (s * dev.bs + k * dev.bs)) dev.bs
          = l := by omega
      rw [hread_len] at hread
      obtain ⟨k, rfl⟩ : ∃ k, n = k + 1 := Nat.exists_eq_succ_of_ne_zero (by omega)
      exact ensures_pure _ fun m hm => ⟨hread, hm⟩

/-- The call returns the contents of the file. -/
theorem readWholeFile_sound (h : Sound dev.bs fs.disk inode) :
    Ensures ∅ (At fs) (readWholeFile dev inode) fun r m =>
      (∃ bytes, r = some bytes ∧
        listed bytes inode.size.toNat = contents dev.bs fs.disk inode) ∧ At fs m := by
  unfold readWholeFile readFromFile
  have hstart : ¬ inode.size < 0 := BitVec.not_lt_zero
  have haligned : (0 : Word) % BitVec.ofNat 32 dev.bs = 0 := BitVec.zero_umod
  rw [zero_add, if_neg hstart, if_neg (BitVec.lt_irrefl _), if_neg (not_not.mpr haligned)]
  apply Ensures.allocate
  intro file_buffer _
  apply Ensures.bind
  · apply readZones_sound h (s := 0) (k := 0) (l := inode.size.toNat)
    · simp
    · simp
    · simp
    · omega
    · exact Or.inr (by omega)
    · have := inode.size.isLt
      unfold rounds
      omega
    · exact ⟨fun x hx => absurd hx (by omega), fun x _ => rfl⟩
  intro bytes
  apply ensures_pure
  rintro m ⟨hread, hm⟩
  refine ⟨⟨bytes, rfl, listed_congr fun k hk => ?_⟩, hm⟩
  rw [hread.inside k hk, Nat.zero_mul, Nat.zero_add]

theorem readFile_sound {inode_num : Word}
    (h : Sound dev.bs fs.disk (Minix3.getInode dev.bs fs.disk inode_num))
    {heap : Heap ℕ Machine} (hm : At fs heap.data) :
    Reads dev heap inode_num
      (contents dev.bs fs.disk (Minix3.getInode dev.bs fs.disk inode_num)) := by
  have hread : Ensures ∅ (At fs) (readFile dev inode_num) fun p _ =>
      p.1 = Minix3.getInode dev.bs fs.disk inode_num ∧ ∃ bytes, p.2 = some bytes ∧
        listed bytes p.1.size.toNat = contents dev.bs fs.disk p.1 := by
    apply (getInode_ensures inode_num).step
    apply (readWholeFile_sound h).bind
    intro file_buffer
    exact ensures_pure _ fun m hm => ⟨rfl, hm.1⟩
  obtain ⟨⟨f_inode, _⟩, h', hrun, -, rfl, bytes, rfl, hbytes⟩ :=
    hread heap (Finset.empty_subset _) hm
  exact ⟨_, bytes, h', hrun, (length_contents).symm, hbytes⟩

end Reads

end FileOps

end Minix3
