import DucreuOS.FileCreation

/-! # Reading a range of a file

`minix3_read_from_file` decides by the file, not by the range, how much of the last zone it reads,
and adds the bounds of the range in 32 bits. -/
namespace Minix3.FileOps

open ByteMemory LiveBlocks

section Range

variable (dev : Mount)

/-- `minix3_read_from_file` with `n` rounds for its loop and the memory that its buffer lies in:
`kcalloc` clears the first `size` bytes, and what `behind` has after them is not the call's. -/
def readFromFileOver (behind : Mem) (n : ℕ) (f_inode : Inode) (start_byte size : Word) :
    Op (Option Mem) :=
  if f_inode.size < start_byte then pure none
  else if f_inode.size < start_byte + size then pure none
  else if start_byte % BitVec.ofNat 32 dev.bs ≠ 0 then pure none
  else do
    let _file_buffer ← kcalloc dev
    let bytes ← readZones dev f_inode start_byte n (fill behind 0 size.toNat 0) 0 size
    pure (some bytes)

theorem readFromFile_over (f_inode : Inode) (start_byte size : Word) :
    readFromFile dev f_inode start_byte size
      = readFromFileOver dev (fun _ => 0) rounds f_inode start_byte size := by
  have hzero : fill (fun _ => 0) 0 size.toNat 0 = fun _ => 0 := by
    funext x
    simp only [fill, blit, ite_self]
  simp only [readFromFileOver, hzero]
  rfl

/-- The call returns the bytes of the range and leaves the memory behind its buffer alone. -/
def ReadsRange (f_inode : Inode) (start_byte size : Word) (h : Heap ℕ Machine) : Prop :=
  ∀ behind, ∃ n bytes h', readFromFileOver dev behind n f_inode start_byte size h
    = .ok (some bytes, h') ∧
      Filled dev.bs h.data.fs f_inode start_byte.toNat size.toNat behind bytes

/-- The call returns `NULL`. -/
def RefusesRange (f_inode : Inode) (start_byte size : Word) (h : Heap ℕ Machine) : Prop :=
  ∀ behind, ∃ n h', readFromFileOver dev behind n f_inode start_byte size h = .ok (none, h')

end Range

variable {dev : Mount} {inode : Inode} {start_byte size : Word} {h : Heap ℕ Machine}

/-- The alignment check accepts a multiple of the block size. -/
theorem aligned {bs : ℕ} (hstart : bs ∣ start_byte.toNat) :
    start_byte % BitVec.ofNat 32 bs = 0 := by
  rcases Nat.lt_or_ge bs (2 ^ 32) with hlt | hge
  · apply BitVec.eq_of_toNat_eq
    rw [BitVec.toNat_umod, BitVec.toNat_ofNat, Nat.mod_eq_of_lt hlt]
    exact Nat.mod_eq_zero_of_dvd hstart
  · have hzero : start_byte = 0 := BitVec.eq_of_toNat_eq
      (Nat.eq_zero_of_dvd_of_lt hstart (start_byte.isLt.trans_le hge))
    rw [hzero]
    exact BitVec.zero_umod

/-- A range of the file passes the checks. -/
theorem readFromFileOver_accepts (hstart : dev.bs ∣ start_byte.toNat)
    (hle : ¬inode.size < start_byte)
    (hsum : ¬inode.size < start_byte + size) (behind : Mem) (n : ℕ) :
    readFromFileOver dev behind n inode start_byte size = (do
      let _file_buffer ← kcalloc dev
      let bytes ← readZones dev inode start_byte n (fill behind 0 size.toNat 0) 0 size
      pure (some bytes)) := by
  simp only [readFromFileOver]
  rw [if_neg hle, if_neg hsum, if_neg (not_not_intro (aligned hstart))]

/-- Of a range inside the file the checks do not overflow. -/
theorem readFromFileOver_inside (hstart : dev.bs ∣ start_byte.toNat)
    (hle : start_byte.toNat + size.toNat ≤ inode.size.toNat) (behind : Mem) (n : ℕ) :
    readFromFileOver dev behind n inode start_byte size = (do
      let _file_buffer ← kcalloc dev
      let bytes ← readZones dev inode start_byte n (fill behind 0 size.toNat 0) 0 size
      pure (some bytes)) := by
  apply readFromFileOver_accepts hstart
  · rw [BitVec.lt_def]
    omega
  · have := inode.size.isLt
    rw [BitVec.lt_def, BitVec.toNat_add]
    omega

theorem reads_range (hsound : Sound dev.bs h.data.fs.disk inode)
    (hstart : dev.bs ∣ start_byte.toNat)
    (hle : start_byte.toNat + size.toNat ≤ inode.size.toNat)
    (hend : dev.bs ∣ size.toNat ∨ start_byte.toNat + size.toNat = inode.size.toNat) :
    ReadsRange dev inode start_byte size h := by
  intro behind
  obtain ⟨s, hs⟩ := hstart
  rw [Nat.mul_comm] at hs
  have hread : Ensures ∅ (At h.data.fs)
      (readFromFileOver dev behind (size.toNat + 1) inode start_byte size) fun r _ =>
      ∃ bytes, r = some bytes ∧
        Filled dev.bs h.data.fs inode start_byte.toNat size.toNat behind bytes := by
    rw [readFromFileOver_inside ⟨s, hs.trans (Nat.mul_comm _ _)⟩ hle]
    apply Ensures.allocate
    intro file_buffer _
    apply Ensures.bind
    · apply readZones_sound hsound (k := 0) (l := size.toNat) hs
      · simp
      · simp
      · rwa [← hs]
      · rwa [← hs]
      · exact Nat.lt_succ_self _
      · exact ⟨fun x hx => absurd hx (by omega), fun x _ => rfl⟩
    intro bytes
    apply ensures_pure
    rintro m ⟨hfill, -⟩
    rw [← hs] at hfill
    refine ⟨bytes, rfl, hfill.inside, fun x hx => ?_⟩
    rw [hfill.outside x hx, fill, blit_outside (by omega)]
  obtain ⟨r, h', hrun, -, bytes, rfl, hfill⟩ := hread h (Finset.empty_subset _) rfl
  exact ⟨_, bytes, h', hrun, hfill⟩

theorem refuses_range (hsum : inode.size.toNat < start_byte.toNat + size.toNat)
    (hfits : inode.size.toNat < start_byte.toNat ∨ start_byte.toNat + size.toNat < 2 ^ 32) :
    RefusesRange dev inode start_byte size h := by
  intro behind
  refine ⟨0, h, ?_⟩
  simp only [readFromFileOver]
  by_cases hstart : inode.size < start_byte
  · rw [if_pos hstart]
    rfl
  · have hwide : inode.size < start_byte + size := by
      rw [BitVec.lt_def] at hstart ⊢
      rw [BitVec.toNat_add]
      omega
    rw [if_neg hstart, if_pos hwide]
    rfl

/-! ## Ranges that end inside the file -/

variable {fs : Fs} {n s k x len : ℕ} {offset : Word} {file_buffer bytes behind : Mem}
  {h' : Heap ℕ Machine}

/-- A round of the loop: the zone is read, and the rest runs on from where the file says. -/
theorem readZones_round (hsound : Sound dev.bs fs.disk inode) (hs : start_byte.toNat = s * dev.bs)
    (ho : offset.toNat = k * dev.bs) (hi : (s + k) * dev.bs < inode.size.toNat)
    (hm : At fs h.data) (hsize : size ≠ 0)
    (hrun : readZones dev inode start_byte (n + 1) file_buffer offset size h = .ok (bytes, h')) :
    ∃ offset' size' mid, At fs mid.data ∧
      readZones dev inode start_byte n
        (blit file_buffer (k * dev.bs) (min (inode.size.toNat - (s + k) * dev.bs) dev.bs)
          (window fs.disk (baddr dev.bs (fileZone dev.bs fs.disk inode (s + k)))))
        offset' size' mid = .ok (bytes, h') ∧
      if (s + k + 1) * dev.bs < inode.size.toNat then
        offset'.toNat = (k + 1) * dev.bs ∧ size' = size - BitVec.ofNat 32 dev.bs
      else offset' = offset := by
  obtain ⟨hbs, htarget, hnext, hnext'⟩ := round_words hsound hs ho hi
  simp only [readZones, if_neg hsize, htarget, ho] at hrun
  obtain ⟨p, mid, hzone, hrest⟩ := bind_returns hrun
  obtain ⟨rfl, hmid⟩ := (readFromZone_ensures hsound hi file_buffer (k * dev.bs)).returned
    (Finset.empty_subset _) hm hzone
  have hlt : offset + start_byte + BitVec.ofNat 32 dev.bs < inode.size ↔
      (s + k + 1) * dev.bs < inode.size.toNat := by
    rw [BitVec.lt_def, hnext]
  dsimp only at hrest
  by_cases hmore : (s + k + 1) * dev.bs < inode.size.toNat
  · rw [if_pos (hlt.mpr hmore)] at hrest
    exact ⟨_, _, mid, hmid, hrest, by rw [if_pos hmore]; exact ⟨hnext', rfl⟩⟩
  · rw [if_neg fun hc => hmore (hlt.mp hc)] at hrest
    exact ⟨_, _, mid, hmid, hrest, by rw [if_neg hmore]⟩

/-- The byte of the file that belongs at `x` of the buffer. -/
def rangeByte (bs : ℕ) (fs : Fs) (inode : Inode) (start x : ℕ) : Byte :=
  fs.disk (byteAddr bs fs.disk inode (start + x))

/-- Where a round reads it puts the bytes of the file. -/
theorem round_byte (dev : Mount) (fs : Fs) (file_buffer : Mem)
    (hx : s * dev.bs + x < inode.size.toNat) (hin : k * dev.bs ≤ x)
    (hin' : x < (k + 1) * dev.bs) :
    blit file_buffer (k * dev.bs) (min (inode.size.toNat - (s + k) * dev.bs) dev.bs)
        (window fs.disk (baddr dev.bs (fileZone dev.bs fs.disk inode (s + k)))) x
      = rangeByte dev.bs fs inode (s * dev.bs) x := by
  rw [Nat.add_mul, Nat.one_mul] at hin'
  have hmul := Nat.add_mul s k dev.bs
  rw [blit_inside hin (by omega), rangeByte,
    byteAddr_in_zone (i := s + k) (by omega) (by omega), window]
  congr 2
  omega

/-- A byte of the file that is in the buffer stays there. -/
theorem readZones_keeps (hsound : Sound dev.bs fs.disk inode) (hs : start_byte.toNat = s * dev.bs)
    (ho : offset.toNat = k * dev.bs) (hi : (s + k) * dev.bs < inode.size.toNat)
    (hm : At fs h.data) (hx : s * dev.bs + x < inode.size.toNat)
    (hbyte : file_buffer x = rangeByte dev.bs fs inode (s * dev.bs) x)
    (hrun : readZones dev inode start_byte n file_buffer offset size h = .ok (bytes, h')) :
    bytes x = rangeByte dev.bs fs inode (s * dev.bs) x := by
  induction n generalizing k offset size file_buffer h with
  | zero => cases hrun
  | succ n ih =>
    by_cases hsize : size = 0
    · simp only [readZones, if_pos hsize] at hrun
      cases hrun
      exact hbyte
    obtain ⟨offset', size', mid, hmid, hrest, hnext⟩ :=
      readZones_round hsound hs ho hi hm hsize hrun
    have hkept : blit file_buffer (k * dev.bs) (min (inode.size.toNat - (s + k) * dev.bs) dev.bs)
        (window fs.disk (baddr dev.bs (fileZone dev.bs fs.disk inode (s + k)))) x
          = rangeByte dev.bs fs inode (s * dev.bs) x := by
      by_cases hin : k * dev.bs ≤ x ∧ x < (k + 1) * dev.bs
      · exact round_byte dev fs file_buffer hx hin.1 hin.2
      · rw [Nat.add_mul, Nat.one_mul] at hin
        rw [blit_outside (by omega), hbyte]
    split_ifs at hnext with hmore
    · exact ih hnext.1 (by rwa [← Nat.add_assoc]) hmid hkept hrest
    · exact ih (hnext ▸ ho) hi hmid hkept hrest

/-- A range that ends inside a zone and before the end of the file: the byte behind the range is
read into the memory behind the buffer. -/
theorem readZones_overruns (hsound : Sound dev.bs fs.disk inode)
    (hs : start_byte.toNat = s * dev.bs) (ho : offset.toNat = k * dev.bs)
    (hsize : size.toNat + k * dev.bs = len) (hpart : ¬dev.bs ∣ len)
    (hlen : s * dev.bs + len < inode.size.toNat) (hm : At fs h.data)
    (hrun : readZones dev inode start_byte n file_buffer offset size h = .ok (bytes, h')) :
    bytes len = rangeByte dev.bs fs inode (s * dev.bs) len := by
  induction n generalizing k offset size file_buffer h with
  | zero => cases hrun
  | succ n ih =>
    have hne : size ≠ 0 := by
      rintro rfl
      exact hpart ⟨k, by rw [← hsize, Nat.mul_comm]; exact Nat.zero_add _⟩
    have hmul := Nat.add_mul s k dev.bs
    have hi : (s + k) * dev.bs < inode.size.toNat := by omega
    obtain ⟨offset', size', mid, hmid, hrest, hnext⟩ := readZones_round hsound hs ho hi hm hne hrun
    by_cases hin : len < (k + 1) * dev.bs
    · have hbyte := round_byte dev fs file_buffer hlen
        (by omega) hin
      split_ifs at hnext with hmore
      · exact readZones_keeps hsound hs hnext.1 (by rwa [← Nat.add_assoc]) hmid hlen hbyte hrest
      · exact readZones_keeps hsound hs (hnext ▸ ho) hi hmid hlen hbyte hrest
    · -- not the last zone of the range, so not that of the file
      have hmul' := Nat.add_mul (s + k) 1 dev.bs
      have hmul'' := Nat.add_mul k 1 dev.bs
      rw [Nat.one_mul] at hmul' hmul''
      rw [if_pos (by omega)] at hnext
      obtain ⟨hoffset, rfl⟩ := hnext
      have hbs := (round_words hsound hs ho hi).1
      refine ih hoffset ?_ hmid hrest
      have := size.isLt
      rw [BitVec.toNat_sub, hbs]
      omega

theorem reads_range_ends (hsound : Sound dev.bs h.data.fs.disk inode)
    (hstart : dev.bs ∣ start_byte.toNat)
    (hle : start_byte.toNat + size.toNat ≤ inode.size.toNat)
    (hread : ReadsRange dev inode start_byte size h) :
    dev.bs ∣ size.toNat ∨ start_byte.toNat + size.toNat = inode.size.toNat := by
  by_contra hno
  obtain ⟨hpart, hinside⟩ := not_or.mp hno
  obtain ⟨s, hs⟩ := hstart
  rw [Nat.mul_comm] at hs
  obtain ⟨n, bytes, h', hrun, hfill⟩ := hread fun _ =>
    rangeByte dev.bs h.data.fs inode start_byte.toNat size.toNat + 1
  rw [readFromFileOver_inside ⟨s, hs.trans (Nat.mul_comm _ _)⟩ hle] at hrun
  obtain ⟨_, mid, halloc, hrest⟩ := bind_returns hrun
  have hmid : At h.data.fs mid.data := by
    cases halloc
    rfl
  obtain ⟨_, mid', hzones, hpure⟩ := bind_returns hrest
  cases hpure
  have hbyte := readZones_overruns (k := 0) hsound hs (by simp) (by simp) hpart (by omega) hmid
    hzones
  rw [hfill.outside _ (le_refl _), hs] at hbyte
  exact absurd hbyte (by simp)

/-- Ranges whose bounds wrap are not refused. -/
theorem refuses_range_fits (hstart : dev.bs ∣ start_byte.toNat)
    (hrefuse : RefusesRange dev inode start_byte size h) :
    inode.size.toNat < start_byte.toNat ∨ start_byte.toNat + size.toNat < 2 ^ 32 := by
  by_contra hno
  obtain ⟨hle, hwide⟩ := not_or.mp hno
  obtain ⟨n, h', hrun⟩ := hrefuse fun _ => 0
  have hsum : ¬inode.size < start_byte + size := by
    have := start_byte.isLt
    have := size.isLt
    rw [BitVec.lt_def, BitVec.toNat_add]
    omega
  rw [readFromFileOver_accepts hstart (by rwa [BitVec.lt_def]) hsum] at hrun
  obtain ⟨_, _, _, hrest⟩ := bind_returns hrun
  obtain ⟨_, _, _, hpure⟩ := bind_returns hrest
  cases hpure

/-- Reading from a block boundary on: ranges in the file are read and no byte behind the buffer is
written, and the others are refused, exactly if a range that ends inside a zone ends with the file
and the bounds of a range that begins in the file add up in 32 bits. -/
theorem read_range_iff (dev : Mount) (h : Heap ℕ Machine) (inode : Inode)
    (hsound : Sound dev.bs h.data.fs.disk inode) (start_byte size : Word)
    (hstart : dev.bs ∣ start_byte.toNat) :
    ((start_byte.toNat + size.toNat ≤ inode.size.toNat → ReadsRange dev inode start_byte size h) ∧
      (inode.size.toNat < start_byte.toNat + size.toNat →
        RefusesRange dev inode start_byte size h)) ↔
    ((start_byte.toNat + size.toNat ≤ inode.size.toNat →
        dev.bs ∣ size.toNat ∨ start_byte.toNat + size.toNat = inode.size.toNat) ∧
      (inode.size.toNat < start_byte.toNat + size.toNat →
        inode.size.toNat < start_byte.toNat ∨ start_byte.toNat + size.toNat < 2 ^ 32)) := by
  constructor
  · rintro ⟨hread, hrefuse⟩
    exact ⟨fun hle => reads_range_ends hsound hstart hle (hread hle),
      fun hlt => refuses_range_fits hstart (hrefuse hlt)⟩
  · rintro ⟨hend, hfits⟩
    exact ⟨fun hle => reads_range hsound hstart hle (hend hle),
      fun hlt => refuses_range hlt (hfits hlt)⟩

theorem root_sound : Sound 1024 (rootHeap false).data.fs.disk
    (Minix3.getInode 1024 (rootDevice false) 1) :=
  (root_consistent false).sound ⟨by decide, by decide⟩ (root_whole false)

/-- The 128 bytes of a file of one zone. -/
theorem read_range_iff_root :
    ReadsRange smallMount (Minix3.getInode 1024 (rootDevice false) 1) 0 128 (rootHeap false) := by
  have h := read_range_iff smallMount (rootHeap false) (Minix3.getInode 1024 (rootDevice false) 1)
    root_sound 0 128 (dvd_zero _)
  exact (h.mpr ⟨fun _ => Or.inr (by decide), fun hlt => absurd hlt (by decide)⟩).1 (by decide)

/-- The first 64 bytes of the same file: the rest of it lands behind the buffer. -/
theorem read_range_overruns :
    ¬ReadsRange smallMount (Minix3.getInode 1024 (rootDevice false) 1) 0 64 (rootHeap false) := by
  intro h
  have hend := reads_range_ends root_sound (dvd_zero _) (by decide) h
  revert hend
  decide

end Minix3.FileOps
