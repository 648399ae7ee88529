import DucreuOS.FileCreation

/-! # The last zone of a file

`minix3_get_last_file_zone` guesses by the size and then counts up while the lookup reports more
than a zone. The reported size falls only with mapped zones. -/
namespace Minix3.FileOps

open LiveBlocks

variable {dev : Mount} {fs : Fs} {inode : Inode} {n i : ℕ} {zone_num : Word}
  {h : Heap ℕ Machine}

/-! ## The reported size -/

/-- The zones of the file that the walk finds mapped in front of index `i`. -/
def mappedBelow (bs : ℕ) (fs : Fs) (inode : Inode) (i : ℕ) : ℕ :=
  Nat.count (fun j => walkedZone bs fs.disk inode j ≠ 0) i

theorem reportedSize_eq {bs : ℕ} : reportedSize bs fs.disk inode i
    = inode.size.toNat - bs * mappedBelow bs fs inode (min i (blockStart bs (blocks bs))) := rfl

theorem reportedSize_anti {bs i j : ℕ} (hij : i ≤ j) :
    reportedSize bs fs.disk inode j ≤ reportedSize bs fs.disk inode i := by
  rw [reportedSize_eq, reportedSize_eq]
  have hcount : mappedBelow bs fs inode (min i (blockStart bs (blocks bs)))
      ≤ mappedBelow bs fs inode (min j (blockStart bs (blocks bs))) :=
    Nat.count_monotone _ (min_le_min_right _ hij)
  exact Nat.sub_le_sub_left (Nat.mul_le_mul_left bs hcount) _

/-- At the last index that a file can have at most one zone remains. -/
theorem reportedSize_last {bs : ℕ} : reportedSize bs fs.disk inode (blockStart bs (blocks bs) - 1) ≤ bs
    ↔ inode.size.toNat ≤ bs * (1 + mappedBelow bs fs inode (blockStart bs (blocks bs) - 1)) := by
  rw [reportedSize_eq, Nat.min_eq_left (Nat.sub_le _ _), Nat.mul_add, Nat.mul_one]
  omega

/-! ## The loop -/

/-- The loop goes up to the first index at which at most one zone remains. -/
theorem lastFileZoneFrom_ends (hppz : 0 < ppz dev.bs) {j : ℕ} (hj : zone_num.toNat ≤ j)
    (hlt : j < 2 ^ 32) (hn : j < zone_num.toNat + n)
    (hlast : reportedSize dev.bs fs.disk inode j ≤ dev.bs) :
    Ensures ∅ (At fs) (lastFileZoneFrom dev inode n zone_num) fun z m =>
      z.toNat ≤ j ∧ reportedSize dev.bs fs.disk inode z.toNat ≤ dev.bs ∧ At fs m := by
  induction n generalizing zone_num with
  | zero => omega
  | succ n ih =>
    rw [lastFileZoneFrom]
    apply (gzbars_reports hppz inode zone_num.toNat).bind
    rintro ⟨zone_baddr, remaining_size⟩
    apply Ensures.given
    rintro rfl
    dsimp only
    apply Ensures.ite
    · intro hmore
      have hne : zone_num.toNat ≠ j := by
        rintro rfl
        omega
      have hnext : (zone_num + 1).toNat = zone_num.toNat + 1 := by
        rw [BitVec.toNat_add]
        exact Nat.mod_eq_of_lt (by change zone_num.toNat + 1 < 2 ^ 32; omega)
      exact ih (by omega) (by omega)
    · intro hmore
      exact ensures_pure _ fun m hm => ⟨hj, not_lt.mp hmore, hm⟩

/-- The result, if there is one, is not in front of an index where more than a zone remains. -/
theorem lastFileZoneFrom_returns (hppz : 0 < ppz dev.bs) {z : Word} {h' : Heap ℕ Machine}
    (hm : At fs h.data) (hrun : lastFileZoneFrom dev inode n zone_num h = .ok (z, h')) :
    reportedSize dev.bs fs.disk inode z.toNat ≤ dev.bs ∧ At fs h'.data := by
  induction n generalizing zone_num h with
  | zero => cases hrun
  | succ n ih =>
    rw [lastFileZoneFrom] at hrun
    obtain ⟨⟨zone_baddr, remaining_size⟩, mid, hlook, hrest⟩ := bind_returns hrun
    obtain ⟨rfl, hmid⟩ :=
      (gzbars_reports hppz inode zone_num.toNat).returned (Finset.empty_subset _) hm hlook
    dsimp only at hrest
    split_ifs at hrest with hmore
    · exact ih hmid hrest
    · cases hrest
      exact ⟨not_lt.mp hmore, hmid⟩

/-- The call returns an index that a file can have, where the lookup reports at most one zone. -/
def FindsLastZone (dev : Mount) (f_inode : Inode) (h : Heap ℕ Machine) : Prop :=
  ∃ z h', getLastFileZone dev f_inode h = .ok (z, h') ∧ z.toNat < getFileMaxZones dev.bs ∧
    ∃ zone_baddr remaining_size h'', gzbars dev f_inode z.toNat h'
      = .ok ((zone_baddr, remaining_size), h'') ∧ remaining_size ≤ dev.bs

theorem getFileMaxZones_fits {bs : ℕ} (hmax : blockStart bs (blocks bs) < 2 ^ 32) :
    getFileMaxZones bs = blockStart bs (blocks bs) := by
  have hsum : 7 + ppz bs + ppz bs * ppz bs + ppz bs * ppz bs * ppz bs
      = blockStart bs (blocks bs) := by
    simp only [blockStart, blocks]
    ring
  rw [getFileMaxZones, hsum, Nat.mod_eq_of_lt hmax]

theorem block_size_fits {bs : ℕ} (hmax : blockStart bs (blocks bs) < 2 ^ 32) : bs < 2 ^ 32 := by
  have hppz : ppz bs < 2 ^ 29 := by
    by_contra hge
    have hblocks : ppz bs ≤ blocks bs * ppz bs := Nat.le_mul_of_pos_left _ (by simp [blocks])
    have hsquare : ppz bs * ppz bs ≤ blocks bs * ppz bs :=
      Nat.mul_le_mul_right _ (by simp only [blocks]; omega)
    have hbig : 2 ^ 29 * 2 ^ 29 ≤ ppz bs * ppz bs :=
      Nat.mul_le_mul (not_lt.mp hge) (not_lt.mp hge)
    simp only [blockStart] at hmax
    omega
  simp only [ppz] at hppz
  omega

/-- The first guess is right for a file without holes. -/
theorem guess_toNat {bs : ℕ} {size : Word} (hbs : bs < 2 ^ 32) (hsize : size ≠ 0) :
    ((size - 1) / BitVec.ofNat 32 bs).toNat = (size.toNat - 1) / bs := by
  have hpos : 0 < size.toNat := Nat.pos_of_ne_zero fun he => hsize (BitVec.eq_of_toNat_eq he)
  have hone : (1 : Word).toNat = 1 := rfl
  rw [BitVec.toNat_udiv, BitVec.toNat_ofNat, Nat.mod_eq_of_lt hbs,
    BitVec.toNat_sub_of_le (by rw [BitVec.le_def, hone]; omega), hone]

theorem finds_last_zone (hppz : 0 < ppz dev.bs) (hmax : blockStart dev.bs (blocks dev.bs) < 2 ^ 32)
    (hsize : inode.size.toNat ≤ dev.bs *
      (1 + mappedBelow dev.bs h.data.fs inode (blockStart dev.bs (blocks dev.bs) - 1))) :
    FindsLastZone dev inode h := by
  have hE : 7 ≤ blockStart dev.bs (blocks dev.bs) := Nat.le_add_right _ _
  have hfind : Ensures ∅ (At h.data.fs) (getLastFileZone dev inode) fun z m =>
      z.toNat < blockStart dev.bs (blocks dev.bs) ∧
        reportedSize dev.bs h.data.fs.disk inode z.toNat ≤ dev.bs ∧ At h.data.fs m := by
    simp only [getLastFileZone]
    apply Ensures.ite
    · intro hzero
      have hempty : reportedSize dev.bs h.data.fs.disk inode 0 ≤ dev.bs := by
        rw [reportedSize_eq, hzero]
        simp
      exact ensures_pure _ fun m hm => ⟨Nat.lt_of_lt_of_le (by decide) hE, hempty, hm⟩
    · intro hne
      have hguess := guess_toNat (block_size_fits hmax) hne
      have hcount : mappedBelow dev.bs h.data.fs inode (blockStart dev.bs (blocks dev.bs) - 1)
          ≤ blockStart dev.bs (blocks dev.bs) - 1 := Nat.count_le _
      have hfits := Nat.mul_le_mul_left dev.bs (Nat.add_le_add_left hcount 1)
      have hbs : 0 < dev.bs := by
        simp only [ppz] at hppz
        omega
      have hstart : (inode.size.toNat - 1) / dev.bs ≤ blockStart dev.bs (blocks dev.bs) - 1 := by
        have hpos : inode.size.toNat ≠ 0 := fun he => hne (BitVec.eq_of_toNat_eq he)
        have hdiv := (Nat.div_lt_iff_lt_mul hbs (x := inode.size.toNat - 1)
          (y := blockStart dev.bs (blocks dev.bs))).mpr (by
            rw [Nat.mul_comm]
            rw [show 1 + (blockStart dev.bs (blocks dev.bs) - 1)
              = blockStart dev.bs (blocks dev.bs) by omega] at hfits
            omega)
        omega
      apply (lastFileZoneFrom_ends hppz (j := blockStart dev.bs (blocks dev.bs) - 1) ?_ ?_ ?_
        (reportedSize_last.mpr hsize)).weaken
      · exact fun z m hz => ⟨by omega, hz.2⟩
      · omega
      · omega
      · unfold rounds
        omega
  obtain ⟨z, h', hrun, -, hz, hreport, hm⟩ := hfind h (Finset.empty_subset _) rfl
  obtain ⟨⟨zone_baddr, remaining_size⟩, h'', hlook, -, rfl, -⟩ :=
    gzbars_reports hppz inode z.toNat h' (Finset.empty_subset _) hm
  exact ⟨z, h', hrun, by rwa [getFileMaxZones_fits hmax], _, _, h'', hlook, hreport⟩

theorem last_zone_fits (hppz : 0 < ppz dev.bs) (hmax : blockStart dev.bs (blocks dev.bs) < 2 ^ 32)
    (hfinds : FindsLastZone dev inode h) : inode.size.toNat ≤ dev.bs *
      (1 + mappedBelow dev.bs h.data.fs inode (blockStart dev.bs (blocks dev.bs) - 1)) := by
  by_cases hzero : inode.size = 0
  · rw [hzero]
    exact Nat.zero_le _
  obtain ⟨z, h', hrun, hz, -⟩ := hfinds
  rw [getLastFileZone, if_neg hzero] at hrun
  obtain ⟨hreport, -⟩ := lastFileZoneFrom_returns hppz rfl hrun
  rw [getFileMaxZones_fits hmax] at hz
  apply reportedSize_last.mp
  exact (reportedSize_anti (by omega)).trans hreport

/-- The call ends with the last zone of a file exactly if the zones that are mapped below the last
index, and one more, hold a file of this size. -/
theorem finds_last_zone_iff (dev : Mount) (hppz : 0 < ppz dev.bs)
    (hmax : blockStart dev.bs (blocks dev.bs) < 2 ^ 32) (f_inode : Inode) (h : Heap ℕ Machine) :
    FindsLastZone dev f_inode h ↔ f_inode.size.toNat ≤ dev.bs *
      (1 + mappedBelow dev.bs h.data.fs f_inode (blockStart dev.bs (blocks dev.bs) - 1)) :=
  ⟨last_zone_fits hppz hmax, finds_last_zone hppz hmax⟩

theorem finds_last_zone_iff_root :
    FindsLastZone smallMount (Minix3.getInode 1024 (rootDevice false) 1) (rootHeap false) := by
  apply (finds_last_zone_iff smallMount (by decide) (by decide) _ _).mpr
  rw [Nat.mul_add]
  exact Nat.le_add_right_of_le (by decide)

theorem unmapped_walk {bs : ℕ} {disk : ByteMemory.Mem} (hzones : ∀ i, inode.zones i = 0) (j : ℕ) :
    walkedZone bs disk inode j = 0 := by
  simp [walkedZone, zoneUnder, walkedBlock, blockSlot, hzones]

/-- An inode of 2048 bytes that maps no zone. -/
def holeInode : Inode := { Inode.zero with size := 2048 }

/-- More than a zone remains at every index, so the loop never ends. -/
theorem last_zone_of_hole : ¬∃ z h',
    getLastFileZone smallMount holeInode (rootHeap false) = .ok (z, h') := by
  rintro ⟨z, h', hrun⟩
  rw [getLastFileZone, if_neg (by decide)] at hrun
  obtain ⟨hreport, -⟩ := lastFileZoneFrom_returns (by decide) rfl hrun
  have hzones (i : Fin 10) : holeInode.zones i = 0 := rfl
  have hnone : reportedSize 1024 (rootHeap false).data.fs.disk holeInode z.toNat = 2048 := by
    rw [reportedSize, remainingAt_quiet (Nat.zero_le _) fun j _ _ => unmapped_walk hzones j]
    rfl
  rw [show smallMount.bs = 1024 from rfl, hnone] at hreport
  exact absurd hreport (by decide)

end Minix3.FileOps
