import DucreuOS.ZoneTree

/-! # Setting a zone of a file

`minix3_set_zone_to` walks to its index and stores the new zone there. Where the index is the
first one below a pointer block, the walk takes a new block first, also over an existing one. -/
namespace Minix3

open ByteMemory PlacedTree

/-- The same cursors over another content of the device. -/
def Fs.withDisk (fs : Fs) (disk : Mem) : Fs := { fs with disk }

@[simp] theorem Fs.withDisk_disk (fs : Fs) (disk : Mem) : (fs.withDisk disk).disk = disk := rfl
@[simp] theorem Fs.withDisk_zoneCursor (fs : Fs) (disk : Mem) :
    (fs.withDisk disk).zoneCursor = fs.zoneCursor := rfl
@[simp] theorem Fs.withDisk_inodeCursor (fs : Fs) (disk : Mem) :
    (fs.withDisk disk).inodeCursor = fs.inodeCursor := rfl

@[simp] theorem Inode.setZone_same (inode : Inode) (r : Fin 10) (v : Word) :
    (inode.setZone r v).zones r = v := by
  simp [Inode.setZone]

/-! ## The walk at its target -/

section AtTarget

variable {bs target : ℕ} {set_zone_to : Word} {zones : Mem} {I_zone_baddr : ℕ}

theorem walkSlot_pass {w : Walk} (h : w.i < target) (j : ℕ) :
    walkSlot bs target (some set_zone_to) I_zone_baddr zones j w
      = .ok (w.pass bs (load32 zones (4 * j))) :=
  if_neg (by omega)

theorem walkSlot_set {w : Walk} (h : target ≤ w.i) (j : ℕ) :
    walkSlot bs target (some set_zone_to) I_zone_baddr zones j w
      = .error (.found ⟨w.fs.withDisk (blit w.fs.disk I_zone_baddr bs
          (store32 zones (4 * j) set_zone_to)), w.inode, w.i, w.remaining⟩ set_zone_to) := by
  have hload : load32 (store32 zones (4 * j) set_zone_to) (4 * j) = set_zone_to :=
    load32_store32 zones (4 * j) set_zone_to
  simp only [walkSlot, if_pos h, hload, Fs.withDisk]

/-- The leaf loop stores the zone in the slot of the target and writes its buffer back. -/
theorem walkZones_set (n j : ℕ) (w : Walk) (hle : w.i ≤ target) (hlt : target < w.i + n) :
    ∃ r, walkZones bs target (some set_zone_to) I_zone_baddr zones n j w
      = .error (.found ⟨w.fs.withDisk (blit w.fs.disk I_zone_baddr bs
          (store32 zones (4 * (j + (target - w.i))) set_zone_to)), w.inode, target, r⟩
        set_zone_to) := by
  induction n generalizing j w with
  | zero => omega
  | succ n ih =>
    by_cases hi : w.i = target
    · refine ⟨w.remaining, ?_⟩
      simp only [walkZones, walkSlot_set hi.ge, hi, Nat.sub_self, Nat.add_zero]
      rfl
    · obtain ⟨r, hr⟩ := ih (j + 1) (w.pass bs (load32 zones (4 * j)))
        (by simp only [Walk.pass]; omega) (by simp only [Walk.pass]; omega)
      refine ⟨r, ?_⟩
      have hslot : j + 1 + (target - (w.pass bs (load32 zones (4 * j))).i) = j + (target - w.i) := by
        simp only [Walk.pass]
        omega
      rw [hslot] at hr
      simp only [walkZones, walkSlot_pass (show w.i < target by omega)]
      exact hr

/-- A store into a block through its buffer is a store into the device. -/
theorem blit_store_window {disk : Mem} {a s : ℕ} {v : Word} (hs : s < ppz bs) :
    blit disk a bs (store32 (window disk a) (4 * s) v) = store32 disk (a + 4 * s) v :=
  blit_blit_window (by simp only [ppz] at hs; omega)

/-- In place: the loop over the block of `zone` stores one word of the device. -/
theorem walkBlock_set (set_zone_to : Word) {zone : Word} (hz : zone ≠ 0) (w : Walk) (hle : w.i ≤ target)
    (hlt : target < w.i + ppz bs) :
    ∃ r, walkBlock bs target (some set_zone_to) zone w
      = .error (.found ⟨w.fs.withDisk (store32 w.fs.disk
          (baddr32 bs zone + 4 * (target - w.i)) set_zone_to), w.inode, target, r⟩ set_zone_to) := by
  have hslot : target - w.i < ppz bs := by omega
  rw [walkBlock, if_pos hz, ← blit_store_window hslot]
  obtain ⟨r, hr⟩ := walkZones_set (ppz bs) 0 w hle hlt
  refine ⟨r, hr.trans ?_⟩
  rw [Nat.zero_add]

theorem walkBlock_set_first (set_zone_to : Word) (hppz : 0 < ppz bs) {zone : Word} (hz : zone ≠ 0)
    (w : Walk) (hi : w.i = target) :
    ∃ r, walkBlock bs target (some set_zone_to) zone w
      = .error (.found ⟨w.fs.withDisk (store32 w.fs.disk (baddr32 bs zone) set_zone_to), w.inode,
        target, r⟩ set_zone_to) := by
  obtain ⟨r, hr⟩ := walkBlock_set set_zone_to hz w hi.le (show target < w.i + ppz bs by omega)
  refine ⟨r, ?_⟩
  simpa only [hi, Nat.sub_self, Nat.mul_zero, Nat.add_zero] using hr

/-- Out of place: the first slot below pointer `k` of a block is set in a new block. -/
theorem walkIndirects_fresh (II_zone_baddr n k : ℕ) (Izones : Mem) {w : Walk} {fs₁ : Fs}
    {next_zone : Word} (hppz : 0 < ppz bs) (hi : w.i = target)
    (hfresh : freshBlock bs w.fs = .ok (fs₁, next_zone)) (hz : next_zone ≠ 0) :
    ∃ r, walkIndirects bs target (some set_zone_to) II_zone_baddr (n + 1) k Izones w
      = .error (.found ⟨fs₁.withDisk (store32
          (blit fs₁.disk II_zone_baddr bs (store32 Izones (4 * k) next_zone))
          (baddr32 bs next_zone) set_zone_to), w.inode, target, r⟩ set_zone_to) := by
  have hslot : freshSlot bs target (some set_zone_to) II_zone_baddr k Izones w
      = .ok (store32 Izones (4 * k) next_zone, ⟨fs₁.withDisk
        (blit fs₁.disk II_zone_baddr bs (store32 Izones (4 * k) next_zone)), w.inode, w.i,
        w.remaining⟩) := by
    simp only [freshSlot, if_pos (show w.i = target ∧ (some set_zone_to).isSome from ⟨hi, rfl⟩),
      hfresh]
    rfl
  have hload : load32 (store32 Izones (4 * k) next_zone) (4 * k) = next_zone :=
    load32_store32 Izones (4 * k) next_zone
  obtain ⟨r, hr⟩ := walkBlock_set_first set_zone_to hppz hz ⟨fs₁.withDisk
    (blit fs₁.disk II_zone_baddr bs (store32 Izones (4 * k) next_zone)), w.inode, w.i, w.remaining⟩
    hi
  refine ⟨r, ?_⟩
  rw [walkIndirects, hslot]
  change (walkBlock bs target (some set_zone_to)
    (load32 (store32 Izones (4 * k) next_zone) (4 * k)) _ >>= _) = _
  rw [hload, hr]
  rfl

end AtTarget

/-! ## The way to the target -/

section Way

variable {bs target : ℕ} {fs fs₁ fs₂ : Fs} {inode : Inode} {t nz nz₂ : Word}

theorem walkIndirects_skip (set : Option Word) {c II_zone_baddr : ℕ}
    (hblock : ∀ k < ppz bs,
      load32 fs.disk (II_zone_baddr + 4 * k) = walkedBlock bs fs.disk inode (c + k))
    (d n k : ℕ) (hd : k + d ≤ ppz bs) (ht : blockStart bs (c + k + d) ≤ target) :
    walkIndirects bs target set II_zone_baddr (n + d) k (window fs.disk II_zone_baddr)
        (walkAt bs fs inode (blockStart bs (c + k)))
      = walkIndirects bs target set II_zone_baddr n (k + d) (window fs.disk II_zone_baddr)
        (walkAt bs fs inode (blockStart bs (c + k + d))) := by
  induction d generalizing k with
  | zero => rfl
  | succ d ih =>
    have hstart : blockStart bs (c + k) < blockStart bs (c + k + 1) :=
      blockStart_lt (by omega) (by omega)
    have hend : blockStart bs (c + k + 1) ≤ target :=
      (blockStart_mono bs (by omega)).trans ht
    have hpass : walkBlock bs target set (walkedBlock bs fs.disk inode (c + k))
        (walkAt bs fs inode (blockStart bs (c + k)))
        = .ok (walkAt bs fs inode (blockStart bs (c + k + 1))) :=
      (covers_walkBlock (Or.inr hend)).passes fun j _ hj' hs => absurd hs.1 (by omega)
    have hnext := ih (k + 1) (by omega) (by
      rw [show c + (k + 1) + d = c + k + (d + 1) by omega]
      exact ht)
    rw [show n + (d + 1) = n + d + 1 by omega, walkIndirects,
      freshSlot_undisturbed (Or.inr hend) hstart]
    change (walkBlock bs target set (load32 (window fs.disk II_zone_baddr) (4 * k)) _ >>= _) = _
    rw [load32_window, hblock k (by omega), hpass]
    refine hnext.trans ?_
    rw [show k + 1 + d = k + (d + 1) by omega, show c + (k + 1) + d = c + k + (d + 1) by omega]

theorem zoneWalker_eq {set : Option Word} {w : Walk} {z : Word}
    (h : walkAll bs target set (walkAt bs fs inode 0) = .error (.found w z)) :
    zoneWalker bs fs inode target set = some (w, some z) := by
  have hstart : (⟨fs, inode, 0, inode.size.toNat⟩ : Walk) = walkAt bs fs inode 0 := by
    simp [walkAt, remainingAt]
  simp only [zoneWalker, hstart, h]

theorem walkDirect_reached {set : Option Word} (h : blockStart bs 0 ≤ target) :
    walkDirect bs target set 7 (walkAt bs fs inode 0)
      = .ok (walkAt bs fs inode (blockStart bs 0)) := by
  have hzero : blockStart bs 0 = 7 := by simp [blockStart]
  rw [hzero] at h ⊢
  exact (covers_walkDirect (Or.inr h) 7 0 rfl).passes fun j _ hj hs => absurd hs.1 (by omega)

theorem walkIndirect_reached {set : Option Word} (hppz : 0 < ppz bs)
    (h : blockStart bs 1 ≤ target) :
    walkIndirect bs target set (walkAt bs fs inode (blockStart bs 0))
      = .ok (walkAt bs fs inode (blockStart bs 1)) :=
  (covers_walkIndirect (Or.inr h) hppz).passes fun j _ hj hs => absurd hs.1 (by omega)

theorem walkDirectSlot_pass {i : ℕ} (hi : i < target) (h7 : i < 7) :
    walkDirectSlot bs target (some t) (walkAt bs fs inode i) = .ok (walkAt bs fs inode (i + 1)) := by
  have hslot : inode.zones (Fin.ofNat 10 i) = walkedZone bs fs.disk inode i :=
    (zoneUnder_direct h7).symm
  rw [← walkAt_pass, ← hslot]
  exact if_neg (not_le.mpr hi)

theorem walkDirect_set (h : target < 7) (n i : ℕ) (hn : n + i = 7) (hi : i ≤ target) :
    ∃ r, walkDirect bs target (some t) n (walkAt bs fs inode i)
      = .error (.found ⟨fs, inode.setZone (Fin.ofNat 10 target) t, target, r⟩ t) := by
  induction n generalizing i with
  | zero => omega
  | succ n ih =>
    by_cases hit : i = target
    · subst hit
      refine ⟨remainingAt bs inode (walkedZone bs fs.disk inode) i, ?_⟩
      simp only [walkDirect, walkDirectSlot, walkAt_i, le_refl, if_true]
      rfl
    · obtain ⟨r, hr⟩ := ih (i + 1) (by omega) (by omega)
      refine ⟨r, ?_⟩
      rw [walkDirect, walkDirectSlot_pass (by omega) (by omega)]
      exact hr

/-- A direct pointer is set in the inode alone. -/
theorem setZone_direct (bs : ℕ) (fs : Fs) (inode : Inode) (t : Word) (h : target < 7) :
    ∃ r, zoneWalker bs fs inode target (some t)
      = some (⟨fs, inode.setZone (Fin.ofNat 10 target) t, target, r⟩, some t) := by
  obtain ⟨r, hr⟩ := walkDirect_set h 7 0 rfl (Nat.zero_le _)
  refine ⟨r, zoneWalker_eq ?_⟩
  rw [walkAll, hr]
  rfl

/-- Below the indirect pointer, in the block that is there. -/
theorem setZone_indirect (t : Word) (h : blockStart bs 0 < target) (h' : target < blockStart bs 1)
    (hz : inode.zones MX3_IDZONE ≠ 0) :
    ∃ r, zoneWalker bs fs inode target (some t)
      = some (⟨fs.withDisk (store32 fs.disk (baddr32 bs (inode.zones MX3_IDZONE)
          + 4 * (target - blockStart bs 0)) t), inode, target, r⟩, some t) := by
  rw [blockStart_succ] at h'
  obtain ⟨r, hr⟩ := walkBlock_set t hz (walkAt bs fs inode (blockStart bs 0)) h.le h'
  refine ⟨r, zoneWalker_eq ?_⟩
  rw [walkAll, walkDirect_reached h.le]
  change (walkIndirect bs target (some t) _ >>= _) = _
  rw [walkIndirect, freshPointer_undisturbed (Or.inr h) (Nat.lt_succ_self _)]
  change (walkBlock bs target (some t) (inode.zones MX3_IDZONE) _ >>= _) = _
  rw [hr]
  rfl

/-- The first zone below the indirect pointer, which is renewed. -/
theorem setZone_indirect_fresh (t : Word) (hppz : 0 < ppz bs) (h : target = blockStart bs 0)
    (hfresh : freshBlock bs fs = .ok (fs₁, nz)) (hz : nz ≠ 0) :
    ∃ r, zoneWalker bs fs inode target (some t)
      = some (⟨fs₁.withDisk (store32 fs₁.disk (baddr32 bs nz) t), inode.setZone MX3_IDZONE nz,
          target, r⟩, some t) := by
  have hpointer : freshPointer bs target (some t) MX3_IDZONE (walkAt bs fs inode (blockStart bs 0))
      = .ok ⟨fs₁, inode.setZone MX3_IDZONE nz, blockStart bs 0,
        remainingAt bs inode (walkedZone bs fs.disk inode) (blockStart bs 0)⟩ := by
    rw [freshPointer, if_pos ⟨h.symm, rfl⟩]
    change (freshBlock bs fs >>= _) = _
    rw [hfresh]
    rfl
  obtain ⟨r, hr⟩ := walkBlock_set_first t hppz hz ⟨fs₁, inode.setZone MX3_IDZONE nz, blockStart bs 0,
    remainingAt bs inode (walkedZone bs fs.disk inode) (blockStart bs 0)⟩ h.symm
  refine ⟨r, zoneWalker_eq ?_⟩
  rw [walkAll, walkDirect_reached h.ge]
  change (walkIndirect bs target (some t) _ >>= _) = _
  rw [walkIndirect, hpointer]
  change (walkBlock bs target (some t) ((inode.setZone MX3_IDZONE nz).zones MX3_IDZONE) _ >>= _) = _
  rw [Inode.setZone_same, hr]
  rfl

/-- The walk comes to pointer `k` of the doubly indirect block. -/
theorem walkAll_doubly {set : Option Word} {k : ℕ} (hk : k < ppz bs)
    (hz : inode.zones MX3_IIDZONE ≠ 0) (h : blockStart bs (1 + k) ≤ target)
    (hfirst : blockStart bs 1 < target) :
    walkAll bs target set (walkAt bs fs inode 0)
      = (walkIndirects bs target set (baddr32 bs (inode.zones MX3_IIDZONE)) (ppz bs - k) k
          (window fs.disk (baddr32 bs (inode.zones MX3_IIDZONE)))
          (walkAt bs fs inode (blockStart bs (1 + k))) >>= walkTriplyIndirect bs target set) := by
  have hppz : 0 < ppz bs := by omega
  have hzero : blockStart bs 0 ≤ target := (blockStart_mono bs (Nat.zero_le 1)).trans hfirst.le
  have hblock : ∀ k < ppz bs, load32 fs.disk (baddr32 bs (inode.zones MX3_IIDZONE) + 4 * k)
      = walkedBlock bs fs.disk inode (1 + k) := fun k hk => by
    rw [walkedBlock_doubly hk, blockSlot, if_neg hz]
  have hskip : walkIndirects bs target set (baddr32 bs (inode.zones MX3_IIDZONE)) (ppz bs) 0
      (window fs.disk (baddr32 bs (inode.zones MX3_IIDZONE)))
      (walkAt bs fs inode (blockStart bs 1))
      = walkIndirects bs target set (baddr32 bs (inode.zones MX3_IIDZONE)) (ppz bs - k) k
        (window fs.disk (baddr32 bs (inode.zones MX3_IIDZONE)))
        (walkAt bs fs inode (blockStart bs (1 + k))) := by
    have hfrom := walkIndirects_skip set hblock k (ppz bs - k) 0 (by omega) h
    rwa [Nat.sub_add_cancel hk.le, Nat.zero_add] at hfrom
  rw [walkAll, walkDirect_reached hzero]
  change (walkIndirect bs target set _ >>= _) = _
  rw [walkIndirect_reached hppz hfirst.le]
  change (walkDoublyIndirect bs target set _ >>= _) = _
  rw [walkDoublyIndirect, freshPointer_undisturbed (Or.inr hfirst) (Nat.lt_succ_self _)]
  change (walkDoubly bs target set (inode.zones MX3_IIDZONE) _ >>= _) = _
  rw [walkDoubly, if_pos hz]
  exact congrArg (· >>= walkTriplyIndirect bs target set) hskip

/-- Below pointer `k` of the doubly indirect block, in the block that is there. -/
theorem setZone_doubly (t : Word) {k : ℕ} (hk : k < ppz bs) (h : blockStart bs (1 + k) < target)
    (h' : target < blockStart bs (1 + k + 1)) (hz : inode.zones MX3_IIDZONE ≠ 0)
    (hblock : walkedBlock bs fs.disk inode (1 + k) ≠ 0) :
    ∃ r, zoneWalker bs fs inode target (some t)
      = some (⟨fs.withDisk (store32 fs.disk (baddr32 bs (walkedBlock bs fs.disk inode (1 + k))
          + 4 * (target - blockStart bs (1 + k))) t), inode, target, r⟩, some t) := by
  rw [blockStart_succ] at h'
  obtain ⟨r, hr⟩ := walkBlock_set t hblock (walkAt bs fs inode (blockStart bs (1 + k))) h.le h'
  have hfirst : blockStart bs 1 < target := (blockStart_mono bs (Nat.le_add_right 1 k)).trans_lt h
  have hload : load32 (window fs.disk (baddr32 bs (inode.zones MX3_IIDZONE))) (4 * k)
      = walkedBlock bs fs.disk inode (1 + k) := by
    rw [load32_window, walkedBlock_doubly hk, blockSlot, if_neg hz]
  refine ⟨r, zoneWalker_eq ?_⟩
  rw [walkAll_doubly hk hz h.le hfirst, show ppz bs - k = ppz bs - k - 1 + 1 by omega, walkIndirects,
    freshSlot_undisturbed (Or.inr h) (Nat.lt_succ_self _)]
  change ((walkBlock bs target (some t)
    (load32 (window fs.disk (baddr32 bs (inode.zones MX3_IIDZONE))) (4 * k)) _ >>= _) >>= _) = _
  rw [hload, hr]
  rfl

/-- The first zone below pointer `k` of the doubly indirect block, which is renewed. -/
theorem setZone_doubly_fresh (t : Word) {k : ℕ} (hk : k < ppz bs) (hpos : 0 < k)
    (h : target = blockStart bs (1 + k)) (hz : inode.zones MX3_IIDZONE ≠ 0)
    (hfresh : freshBlock bs fs = .ok (fs₁, nz)) (hnz : nz ≠ 0) :
    ∃ r, zoneWalker bs fs inode target (some t)
      = some (⟨fs₁.withDisk (store32 (blit fs₁.disk (baddr32 bs (inode.zones MX3_IIDZONE)) bs
          (store32 (window fs.disk (baddr32 bs (inode.zones MX3_IIDZONE))) (4 * k) nz))
          (baddr32 bs nz) t), inode, target, r⟩, some t) := by
  have hppz : 0 < ppz bs := by omega
  have hfirst : blockStart bs 1 < target := h ▸ blockStart_lt hppz (by omega)
  obtain ⟨r, hr⟩ := walkIndirects_fresh (baddr32 bs (inode.zones MX3_IIDZONE)) (ppz bs - k - 1) k
    (window fs.disk (baddr32 bs (inode.zones MX3_IIDZONE))) hppz
    (show (walkAt bs fs inode (blockStart bs (1 + k))).i = target from h.symm) hfresh hnz
  refine ⟨r, zoneWalker_eq ?_⟩
  rw [walkAll_doubly hk hz h.ge hfirst, show ppz bs - k = ppz bs - k - 1 + 1 by omega, hr]
  rfl

/-- The first zone below the doubly indirect pointer: its block and the first block below it are
renewed. -/
theorem setZone_doubly_first (t : Word) (hppz : 0 < ppz bs) (h : target = blockStart bs 1)
    (hfresh : freshBlock bs fs = .ok (fs₁, nz)) (hnz : nz ≠ 0)
    (hfresh₂ : freshBlock bs fs₁ = .ok (fs₂, nz₂)) (hnz₂ : nz₂ ≠ 0) :
    ∃ r, zoneWalker bs fs inode target (some t)
      = some (⟨fs₂.withDisk (store32 (blit fs₂.disk (baddr32 bs nz) bs
          (store32 (window fs₁.disk (baddr32 bs nz)) 0 nz₂)) (baddr32 bs nz₂) t),
          inode.setZone MX3_IIDZONE nz, target, r⟩, some t) := by
  have hzero : blockStart bs 0 ≤ target := h ▸ blockStart_mono bs (Nat.zero_le 1)
  have hpointer : freshPointer bs target (some t) MX3_IIDZONE (walkAt bs fs inode (blockStart bs 1))
      = .ok ⟨fs₁, inode.setZone MX3_IIDZONE nz, blockStart bs 1,
        remainingAt bs inode (walkedZone bs fs.disk inode) (blockStart bs 1)⟩ := by
    rw [freshPointer, if_pos ⟨h.symm, rfl⟩]
    change (freshBlock bs fs >>= _) = _
    rw [hfresh]
    rfl
  obtain ⟨r, hr⟩ := walkIndirects_fresh (baddr32 bs nz) (ppz bs - 1) 0
    (window fs₁.disk (baddr32 bs nz)) hppz
    (show (⟨fs₁, inode.setZone MX3_IIDZONE nz, blockStart bs 1,
      remainingAt bs inode (walkedZone bs fs.disk inode) (blockStart bs 1)⟩ : Walk).i = target
      from h.symm) hfresh₂ hnz₂
  rw [Nat.sub_add_cancel hppz] at hr
  refine ⟨r, zoneWalker_eq ?_⟩
  rw [walkAll, walkDirect_reached hzero]
  change (walkIndirect bs target (some t) _ >>= _) = _
  rw [walkIndirect_reached hppz h.ge]
  change (walkDoublyIndirect bs target (some t) _ >>= _) = _
  rw [walkDoublyIndirect, hpointer]
  change (walkDoubly bs target (some t) ((inode.setZone MX3_IIDZONE nz).zones MX3_IIDZONE) _ >>= _) = _
  rw [Inode.setZone_same, walkDoubly, if_pos hnz]
  dsimp only
  rw [Inode.setZone_same, hr]
  rfl

end Way

end Minix3
