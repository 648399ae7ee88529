import DucreuOS.LastFileZone

/-! # Directories

A directory is a file of entries of 64 bytes: an inode number, 0 in an entry that is not in use,
and a name. `minix3_get_inode_from_name` looks at whole zones, so it also sees what lies behind the
end of the file. -/
namespace Minix3.FileOps

open ByteMemory LiveBlocks

/-! ## Entries -/

section Entries

variable {m m' : Mem} {i j bs : ℕ} {name : CString}

/-- The bytes of `name` in an entry. -/
def MX3_NAME_LEN : ℕ := 60

/-- Entry `j` is in use, and its name is this one. -/
structure Named (m : Mem) (name : CString) (j : ℕ) : Prop where
  used : entryInode m j ≠ 0
  fits : name.chars.length < MX3_NAME_LEN
  chars (o : ℕ) : o ≤ name.chars.length → m (j * dirEntrySize + 4 + o) = name.chars.getD o 0

/-- The name of entry `j` ends in the entry. -/
def Terminated (m : Mem) (j : ℕ) : Prop :=
  ∃ o < MX3_NAME_LEN, m (j * dirEntrySize + 4 + o) = 0

theorem samestr_iff {a : ℕ} {cs : List Byte} :
    samestr m a cs = true ↔ ∀ o ≤ cs.length, m (a + o) = cs.getD o 0 := by
  induction cs generalizing a with
  | nil =>
    simp only [samestr, decide_eq_true_eq, List.length_nil, Nat.le_zero, forall_eq, Nat.add_zero,
      List.getD_nil]
  | cons c cs ih =>
    simp only [samestr, Bool.and_eq_true, decide_eq_true_eq, ih, List.length_cons]
    constructor
    · rintro ⟨hc, hcs⟩ o ho
      cases o with
      | zero => exact hc
      | succ o =>
        have hnext := hcs o (by omega)
        rwa [Nat.add_assoc, Nat.add_comm 1] at hnext
    · intro h
      refine ⟨h 0 (Nat.zero_le _), fun o ho => ?_⟩
      have hnext := h (o + 1) (by omega)
      rw [List.getD_cons_succ] at hnext
      rw [← hnext, Nat.add_assoc, Nat.add_comm 1]

/-- `samestr` cannot run past a name that ends in its entry. -/
theorem named_iff (ht : entryInode m j ≠ 0 → Terminated m j) : Named m name j ↔
    (entryInode m j ≠ 0 && samestr m (j * dirEntrySize + 4) name.chars) = true := by
  rw [Bool.and_eq_true, samestr_iff, decide_eq_true_eq]
  constructor
  · exact fun h => ⟨h.used, h.chars⟩
  · rintro ⟨hused, hchars⟩
    refine ⟨hused, ?_, hchars⟩
    by_contra hlong
    obtain ⟨o, ho, hnul⟩ := ht hused
    have hin : o < name.chars.length := by omega
    have hchar := hchars o hin.le
    rw [hnul, List.getD_eq_getElem _ _ hin] at hchar
    exact name.no_nul (hchar ▸ List.getElem_mem hin)

/-- Two entries of 64 equal bytes. -/
theorem entryInode_congr
    (h : ∀ x < dirEntrySize, m' (j * dirEntrySize + x) = m (i * dirEntrySize + x)) :
    entryInode m' j = entryInode m i :=
  load32_congr fun x hx => h x (hx.trans (by decide))

theorem Named.congr (hn : Named m name i)
    (h : ∀ x < dirEntrySize, m' (j * dirEntrySize + x) = m (i * dirEntrySize + x)) :
    Named m' name j where
  used := by
    rw [entryInode_congr h]
    exact hn.used
  fits := hn.fits
  chars o ho := by
    have hfits := hn.fits
    simp only [MX3_NAME_LEN] at hfits
    rw [← hn.chars o ho, Nat.add_assoc, Nat.add_assoc]
    exact h _ (by unfold dirEntrySize; omega)

theorem Terminated.congr (ht : Terminated m i)
    (h : ∀ x < dirEntrySize, m' (j * dirEntrySize + x) = m (i * dirEntrySize + x)) :
    Terminated m' j := by
  obtain ⟨o, ho, hnul⟩ := ht
  refine ⟨o, ho, ?_⟩
  rw [← hnul, Nat.add_assoc, Nat.add_assoc]
  exact h _ (by unfold dirEntrySize; unfold MX3_NAME_LEN at ho; omega)

theorem findName_none (h : findName bs m name = none) (hj : j < dirsPerBlock bs)
    (ht : entryInode m j ≠ 0 → Terminated m j) : ¬ Named m name j := by
  rw [named_iff ht]
  exact List.find?_eq_none.mp h j (List.mem_range.mpr hj)

theorem findName_some (h : findName bs m name = some j)
    (ht : entryInode m j ≠ 0 → Terminated m j) : j < dirsPerBlock bs ∧ Named m name j := by
  refine ⟨List.mem_range.mp (List.mem_of_find?_eq_some h), ?_⟩
  have hfound := List.find?_some h
  exact (named_iff ht).mpr hfound

end Entries

/-! ## The file of a directory -/

/-- The bytes of a file by their place in it. -/
def fileMem (bs : ℕ) (disk : Mem) (inode : Inode) : Mem := fun k => disk (byteAddr bs disk inode k)

def entries (dir : Inode) : ℕ := dir.size.toNat / dirEntrySize

/-- A directory without holes and with zeros behind its end: whole entries whose names end in them,
and no name twice. -/
structure Directory (bs : ℕ) (disk : Mem) (dir : Inode) : Prop where
  sound : Sound bs disk dir
  block : ∃ k, bs = 2 ^ k * dirEntrySize
  size : dirEntrySize ∣ dir.size.toNat
  blank : BlankTail bs disk dir
  terminated (j : ℕ) : j < entries dir → entryInode (fileMem bs disk dir) j ≠ 0 →
    Terminated (fileMem bs disk dir) j
  names (i j : ℕ) (name : CString) : i < entries dir → j < entries dir →
    Named (fileMem bs disk dir) name i → Named (fileMem bs disk dir) name j → i = j

/-- The directory has an entry in use with this name, for this inode. -/
def Binds (bs : ℕ) (disk : Mem) (dir : Inode) (name : CString) (inode_num : Word) : Prop :=
  ∃ j < entries dir, Named (fileMem bs disk dir) name j ∧
    entryInode (fileMem bs disk dir) j = inode_num

/-- For blocks of these sizes the number of zones of a file does not wrap below what a file takes. -/
theorem getFileMaxZones_covers : ∀ k < 26,
    min (blockStart (2 ^ k * dirEntrySize) (1 + ppz (2 ^ k * dirEntrySize)) *
      (2 ^ k * dirEntrySize)) (2 ^ 32)
      ≤ getFileMaxZones (2 ^ k * dirEntrySize) * (2 ^ k * dirEntrySize) := by
  decide +kernel

section Lookup

variable {dev : Mount} {bs i j n : ℕ} {fs : Fs} {disk dirs : Mem} {dir inode : Inode}
  {name : CString} {inode_num other : Word} {found : Option (Word × Inode)}

theorem Directory.aligned (h : Directory bs disk dir) : dirEntrySize ∣ bs := by
  obtain ⟨k, rfl⟩ := h.block
  exact Nat.dvd_mul_left _ _

/-- The look-up goes through all zones. -/
theorem Directory.zones (h : Directory bs disk dir) :
    dir.size.toNat ≤ getFileMaxZones bs * bs := by
  rcases Nat.eq_zero_or_pos dir.size.toNat with hzero | hpos
  · rw [hzero]
    exact Nat.zero_le _
  · have hlast := h.sound.end_lt (j := 0) (by rwa [Nat.zero_mul])
    have hlimit := h.sound.whole.limit
    obtain ⟨k, rfl⟩ := h.block
    have hk : k < 26 := by
      by_contra hge
      have hpow : 2 ^ 26 ≤ 2 ^ k := Nat.pow_le_pow_right (by decide) (not_lt.mp hge)
      simp only [dirEntrySize] at hlast
      omega
    have hcover := getFileMaxZones_covers k hk
    have hsize := dir.size.isLt
    omega

theorem Directory.binds_unique (h : Directory bs disk dir) (hb : Binds bs disk dir name inode_num)
    (hb' : Binds bs disk dir name other) : inode_num = other := by
  obtain ⟨i, hi, hin, rfl⟩ := hb
  obtain ⟨j, hj, hjn, rfl⟩ := hb'
  rw [h.names i j name hi hj hin hjn]

/-- Zone `i` of a directory in a buffer. -/
def InBuffer (bs : ℕ) (disk : Mem) (dir : Inode) (i : ℕ) (dirs : Mem) : Prop :=
  ∀ x < bs, dirs x = disk (baddr bs (fileZone bs disk dir i) + x)

theorem InBuffer.entry (hb : InBuffer bs disk dir i dirs) (hbs : dirEntrySize ∣ bs)
    (hj : j < dirsPerBlock bs) {x : ℕ} (hx : x < dirEntrySize) :
    dirs (j * dirEntrySize + x) =
      fileMem bs disk dir ((i * dirsPerBlock bs + j) * dirEntrySize + x) := by
  have hper : dirsPerBlock bs * dirEntrySize = bs := Nat.div_mul_cancel hbs
  have hin : j * dirEntrySize + x < bs := by
    have := Nat.mul_le_mul_right dirEntrySize (Nat.succ_le_of_lt hj)
    rw [hper, Nat.succ_mul] at this
    omega
  have hplace : (i * dirsPerBlock bs + j) * dirEntrySize + x = i * bs + (j * dirEntrySize + x) := by
    rw [Nat.add_mul, Nat.mul_assoc, hper, Nat.add_assoc]
  rw [hb _ hin, fileMem, hplace, byteAddr_in_zone (Nat.le_add_right _ _) (by omega),
    Nat.add_sub_cancel_left]

/-- Where the directory goes on, an entry of its zones is one of its own or not in use. -/
theorem Directory.behind (h : Directory bs disk dir) (hi : i * bs < dir.size.toNat)
    (hj : j < dirsPerBlock bs) (hout : entries dir ≤ i * dirsPerBlock bs + j) :
    entryInode (fileMem bs disk dir) (i * dirsPerBlock bs + j) = 0 := by
  have hper : dirsPerBlock bs * dirEntrySize = bs := Nat.div_mul_cancel h.aligned
  have hsize : entries dir * dirEntrySize = dir.size.toNat := Nat.div_mul_cancel h.size
  have hstart : (i * dirsPerBlock bs + j) * dirEntrySize = i * bs + j * dirEntrySize := by
    rw [Nat.add_mul, Nat.mul_assoc, hper]
  have hle := Nat.mul_le_mul_right dirEntrySize hout
  have hlast := Nat.mul_le_mul_right dirEntrySize (Nat.succ_le_of_lt hj)
  rw [hper, Nat.succ_mul] at hlast
  rw [hsize, hstart] at hle
  have hzero : ∀ x < 4, fileMem bs disk dir ((i * dirsPerBlock bs + j) * dirEntrySize + x) = 0 := by
    intro x hx
    rw [hstart]
    have hdiv : (i * bs + j * dirEntrySize + x) / bs = i :=
      Nat.div_eq_of_lt_le (by omega) (by rw [Nat.succ_mul]; unfold dirEntrySize at *; omega)
    apply h.blank
    · omega
    · rw [hdiv]
      exact hi
  exact load32_leByte fun x hx => (hzero x hx).trans (by simp [leByte])

theorem Directory.terminated_in (h : Directory bs disk dir) (hb : InBuffer bs disk dir i dirs)
    (hi : i * bs < dir.size.toNat) (hj : j < dirsPerBlock bs) (hused : entryInode dirs j ≠ 0) :
    Terminated dirs j := by
  have hsame {x : ℕ} (hx : x < dirEntrySize) := hb.entry h.aligned hj hx
  have hused' : entryInode (fileMem bs disk dir) (i * dirsPerBlock bs + j) ≠ 0 := by
    rwa [← entryInode_congr fun x hx => hsame hx]
  have hin : i * dirsPerBlock bs + j < entries dir := by
    by_contra hout
    exact hused' (h.behind hi hj (not_lt.mp hout))
  exact (h.terminated _ hin hused').congr fun x hx => hsame hx

/-- A name in the buffer is one in the directory. -/
theorem Directory.named_in (h : Directory bs disk dir) (hb : InBuffer bs disk dir i dirs)
    (hi : i * bs < dir.size.toNat) (hj : j < dirsPerBlock bs) : Named dirs name j ↔
      i * dirsPerBlock bs + j < entries dir ∧
        Named (fileMem bs disk dir) name (i * dirsPerBlock bs + j) := by
  have hsame {x : ℕ} (hx : x < dirEntrySize) := hb.entry h.aligned hj hx
  constructor
  · intro hn
    have hn' : Named (fileMem bs disk dir) name (i * dirsPerBlock bs + j) :=
      hn.congr fun x hx => (hsame hx).symm
    refine ⟨?_, hn'⟩
    by_contra hout
    exact hn'.used (h.behind hi hj (not_lt.mp hout))
  · exact fun hn => hn.2.congr fun x hx => hsame hx

/-- Behind the end of the file nothing remains. -/
theorem reportedSize_end (h : Sound bs fs.disk dir) (hi : dir.size.toNat ≤ i * bs) :
    reportedSize bs fs.disk dir i = 0 := by
  have hpos := h.layout.pos
  obtain ⟨c, hc⟩ : ∃ c, dataZones bs dir.size.toNat = c := ⟨_, rfl⟩
  have hci : c ≤ i := hc ▸ (dataZones_mono bs hi).trans_eq (dataZones_full hpos i)
  have hin (j : ℕ) (hj : j < c) : j * bs < dir.size.toNat := by
    have hle := Nat.mul_le_of_le_div bs (j + 1) (dir.size.toNat + bs - 1) (hj.trans_eq hc.symm)
    rw [Nat.succ_mul] at hle
    omega
  have hcount : Nat.count (fun j => walkedZone bs fs.disk dir j ≠ 0) c = c := by
    rw [Nat.count_iff_forall]
    intro j hj
    rw [walkedZone_eq (addressable h.layout h.marked) (h.front (hin j hj))]
    exact h.zone_ne_zero (hin j hj)
  have hend : c ≤ blockStart bs (blocks bs) := by
    rcases Nat.eq_zero_or_pos c with rfl | hcpos
    · exact Nat.zero_le _
    · have hlast := data_in_front (h.front (hin (c - 1) (by omega)))
      have hlt : c - 1 < blockStart bs (blocks bs) := hlast
      omega
  have hall : dir.size.toNat ≤ bs * c := by
    have hdiv := Nat.div_add_mod (dir.size.toNat + bs - 1) bs
    have hmod := Nat.mod_lt (dir.size.toNat + bs - 1) hpos
    rw [dataZones] at hc
    rw [hc] at hdiv
    omega
  have hnone : reportedSize bs fs.disk dir c = 0 := by
    rw [reportedSize_eq, Nat.min_eq_left hend, mappedBelow, hcount]
    omega
  exact Nat.le_zero.mp (hnone ▸ reportedSize_anti hci)

theorem readDirs_sound (address : ℕ) : Ensures ∅ (At fs) (readDirs dev address) fun dirs m =>
    (∀ x < dev.bs, dirs x = fs.disk (address + x)) ∧ At fs m := by
  apply (readDirs_computes address).ensures
  rintro m rfl
  refine ⟨_, _, rfl, fun x hx => ?_, rfl⟩
  rw [blit_inside (Nat.zero_le x) (by omega), Nat.sub_zero, window]

/-- What the look-up of a name from zone `i` on makes of what was found before. -/
structure Searched (bs : ℕ) (disk : Mem) (dir : Inode) (name : CString) (i : ℕ)
    (found found' : Option (Word × Inode)) : Prop where
  hit (j : ℕ) : i * dirsPerBlock bs ≤ j → j < entries dir → Named (fileMem bs disk dir) name j →
    found' = some (entryInode (fileMem bs disk dir) j,
      Minix3.getInode bs disk (entryInode (fileMem bs disk dir) j))
  miss : (∀ j, i * dirsPerBlock bs ≤ j → j < entries dir →
    ¬ Named (fileMem bs disk dir) name j) → found' = found

/-- An entry of zone `i` or of a later one. -/
theorem entry_zone {per j : ℕ} (hj : i * per ≤ j) :
    (∃ o < per, j = i * per + o) ∨ (i + 1) * per ≤ j := by
  rw [Nat.succ_mul]
  by_cases hlt : j < i * per + per
  · exact Or.inl ⟨j - i * per, by omega, by omega⟩
  · exact Or.inr (by omega)

/-- The name is not in zone `i`. -/
theorem Searched.skip {found' : Option (Word × Inode)}
    (hs : Searched bs disk dir name (i + 1) found found')
    (hnone : ∀ o < dirsPerBlock bs, i * dirsPerBlock bs + o < entries dir →
      ¬ Named (fileMem bs disk dir) name (i * dirsPerBlock bs + o)) :
    Searched bs disk dir name i found found' where
  hit j hj hin hnamed := by
    obtain ⟨o, ho, rfl⟩ | hnext := entry_zone hj
    · exact absurd hnamed (hnone o ho hin)
    · exact hs.hit j hnext hin hnamed
  miss hno := hs.miss fun j hj => hno j (le_trans (by rw [Nat.succ_mul]; omega) hj)

/-- The name is that of entry `j`, which lies in zone `i`: later zones do not have it. -/
theorem Directory.searched (h : Directory bs disk dir) {j : ℕ} {found' : Option (Word × Inode)}
    (hj : i * dirsPerBlock bs ≤ j) (hlast : j < (i + 1) * dirsPerBlock bs) (hin : j < entries dir)
    (hnamed : Named (fileMem bs disk dir) name j)
    (hs : Searched bs disk dir name (i + 1) (some (entryInode (fileMem bs disk dir) j,
      Minix3.getInode bs disk (entryInode (fileMem bs disk dir) j))) found') :
    Searched bs disk dir name i found found' := by
  have hfound := hs.miss fun k hk hkin hknamed => by
    have hsame := h.names j k name hin hkin hnamed hknamed
    omega
  refine ⟨fun k _ hkin hknamed => ?_, fun hno => absurd hnamed (hno j hj hin)⟩
  rw [← h.names j k name hin hkin hnamed hknamed]
  exact hfound

theorem searchZones_sound (h : Directory dev.bs fs.disk dir)
    (hn : dir.size.toNat ≤ (i + n) * dev.bs) :
    Ensures ∅ (At fs) (searchZones dev dir name n i found) fun found' m =>
      Searched dev.bs fs.disk dir name i found found' ∧ At fs m := by
  have hper : dirsPerBlock dev.bs * dirEntrySize = dev.bs := Nat.div_mul_cancel h.aligned
  have hsize : entries dir * dirEntrySize = dir.size.toNat := Nat.div_mul_cancel h.size
  -- no entry lies behind the end
  have hend {i : ℕ} {found : Option (Word × Inode)} (hi : dir.size.toNat ≤ i * dev.bs) :
      Searched dev.bs fs.disk dir name i found found := by
    have hle : entries dir ≤ i * dirsPerBlock dev.bs := by
      apply Nat.le_of_mul_le_mul_right (c := dirEntrySize) _ (by decide)
      rwa [hsize, Nat.mul_assoc, hper]
    exact ⟨fun j hj hin => absurd hin (by omega), fun _ => rfl⟩
  induction n generalizing i found with
  | zero => exact ensures_pure _ fun m hm => ⟨hend hn, hm⟩
  | succ n ih =>
    simp only [searchZones]
    by_cases hi : i * dev.bs < dir.size.toNat
    · apply (gzbars_sound h.sound (Or.inl hi)).step
      have haddress := h.sound.address_ne_zero hi
      dsimp only
      rw [if_neg (by omega), if_neg haddress]
      apply (readDirs_sound _).bind
      intro dirs
      apply Ensures.given
      intro (hb : InBuffer dev.bs fs.disk dir i dirs)
      have hused {j : ℕ} (hj : j < dirsPerBlock dev.bs) := h.terminated_in hb hi hj
      have hn' : dir.size.toNat ≤ (i + 1 + n) * dev.bs := by rwa [Nat.add_right_comm]
      cases hfind : findName dev.bs dirs name with
      | none =>
        apply (ih hn').weaken
        rintro found' m ⟨hs, hm⟩
        refine ⟨hs.skip fun o ho hin hnamed => ?_, hm⟩
        exact findName_none hfind ho (hused ho) ((h.named_in hb hi ho).mpr ⟨hin, hnamed⟩)
      | some j =>
        have hj : j < dirsPerBlock dev.bs := List.mem_range.mp (List.mem_of_find?_eq_some hfind)
        obtain ⟨hin, hnamed⟩ := (h.named_in hb hi hj).mp (findName_some hfind (hused hj)).2
        have hentry : entryInode dirs j
            = entryInode (fileMem dev.bs fs.disk dir) (i * dirsPerBlock dev.bs + j) :=
          entryInode_congr fun x hx => hb.entry h.aligned hj hx
        apply (getInode_ensures (entryInode dirs j)).step
        dsimp only
        rw [hentry]
        apply (ih hn').weaken
        rintro found' m ⟨hs, hm⟩
        exact ⟨h.searched (Nat.le_add_right _ _) (by rw [Nat.succ_mul]; omega) hin hnamed hs, hm⟩
    · have hppz := ppz_pos h.sound.layout
      apply (gzbars_reports hppz dir i).bind
      rintro ⟨address_on_block, remaining_size⟩
      apply Ensures.given
      rintro rfl
      dsimp only
      rw [if_pos (reportedSize_end h.sound (not_lt.mp hi))]
      exact ensures_pure _ fun m hm => ⟨hend (not_lt.mp hi), hm⟩

/-- What a look-up of a name in a directory returns. -/
structure Finds (bs : ℕ) (disk : Mem) (dir : Inode) (name : CString) (lookup : Lookup) : Prop where
  bound (inode_num : Word) : Binds bs disk dir name inode_num →
    lookup = .ofFound (some (inode_num, Minix3.getInode bs disk inode_num))
  unbound : (∀ inode_num, ¬ Binds bs disk dir name inode_num) → lookup = .notFound

theorem getInodeFromName_sound (h : Directory dev.bs fs.disk dir) (hdir : dir.isDirectory = true)
    (name : CString) : Ensures ∅ (At fs) (getInodeFromName dev dir name) fun lookup m =>
      Finds dev.bs fs.disk dir name lookup ∧ At fs m := by
  simp only [getInodeFromName, hdir, Bool.not_true, Bool.false_eq_true, if_false]
  apply Ensures.allocate
  intro zone hzone
  apply (searchZones_sound (i := 0) h (by rw [Nat.zero_add]; exact h.zones)).bind
  intro found
  apply Ensures.release hzone
  apply ensures_pure
  rintro m ⟨hs, hm⟩
  refine ⟨⟨?_, fun hno => ?_⟩, hm⟩
  · rintro inode_num ⟨j, hin, hnamed, rfl⟩
    rw [hs.hit j (by omega) hin hnamed]
  · rw [hs.miss fun j _ hin hnamed => hno _ ⟨j, hin, hnamed, rfl⟩]
    rfl

end Lookup

/-! ## The tree of directories -/

/-- The directories that the root leads to. -/
inductive Reachable (bs : ℕ) (disk : Mem) : Word → Prop
  | root : Reachable bs disk 1
  | step {parent child : Word} {name : CString} : Reachable bs disk parent →
    Binds bs disk (Minix3.getInode bs disk parent) name child →
    (Minix3.getInode bs disk child).isDirectory = true → Reachable bs disk child

/-- A consistent device: moreover the entries of its directories are for inodes in use. -/
structure Tree (bs : ℕ) (disk : Mem) : Prop extends Consistent bs disk where
  root : InUse bs disk 1 ∧ (Minix3.getInode bs disk 1).isDirectory = true
  directory (n : Word) : Reachable bs disk n → Directory bs disk (Minix3.getInode bs disk n)
  entry (n child : Word) (name : CString) : Reachable bs disk n →
    Binds bs disk (Minix3.getInode bs disk n) name child → InUse bs disk child

theorem Tree.reachable {bs : ℕ} {disk : Mem} (h : Tree bs disk) {n : Word}
    (hn : Reachable bs disk n) :
    InUse bs disk n ∧ (Minix3.getInode bs disk n).isDirectory = true := by
  cases hn with
  | root => exact h.root
  | step hparent hbinds hdir => exact ⟨h.entry _ _ _ hparent hbinds, hdir⟩

/-! The root directory of a device without further files. -/

section Device

variable {full : Bool} {n child : Word} {name : CString} {i j k : ℕ}

theorem root_size : (Minix3.getInode 1024 (rootDevice full) 1).size.toNat = 2 * dirEntrySize := by
  revert full
  decide

theorem root_entries : entries (Minix3.getInode 1024 (rootDevice full) 1) = 2 := by
  rw [entries, root_size]
  rfl

theorem root_byte (hk : k < 1024) :
    fileMem 1024 (rootDevice full) (Minix3.getInode 1024 (rootDevice full) 1) k
      = rootDevice full (5120 + k) := by
  have hzone : fileZone 1024 (rootDevice full) (Minix3.getInode 1024 (rootDevice full) 1) 0 = 5 :=
    root_zone full
  rw [fileMem, byteAddr_in_zone (i := 0) (by omega) (by omega), hzone]
  rfl

/-- Behind the two names. -/
theorem rootDevice_blank (hk : 5190 ≤ k) : rootDevice full k = 0 := by
  rw [rootDevice]
  repeat rw [if_neg (by omega)]

theorem root_named (hj : j < 2)
    (h : Named (fileMem 1024 (rootDevice full) (Minix3.getInode 1024 (rootDevice full) 1)) name j)
    {o : ℕ} (ho : o ≤ name.chars.length) :
    rootDevice full (5124 + j * 64 + o) = name.chars.getD o 0 := by
  have hfits := h.fits
  simp only [MX3_NAME_LEN] at hfits
  rw [← h.chars o ho, root_byte (by simp only [dirEntrySize]; omega)]
  congr 1
  simp only [dirEntrySize]
  omega

theorem root_inode (hj : j < 2) :
    entryInode (fileMem 1024 (rootDevice full) (Minix3.getInode 1024 (rootDevice full) 1)) j
      = 1 := by
  have hentry : entryInode (fileMem 1024 (rootDevice full)
      (Minix3.getInode 1024 (rootDevice full) 1)) j = entryInode (rootDevice full) (80 + j) := by
    apply entryInode_congr
    intro x hx
    simp only [dirEntrySize] at hx ⊢
    rw [root_byte (by omega)]
    congr 1
    omega
  rw [hentry]
  revert full
  interval_cases j <;> decide

theorem root_names (hi : i < 2) (hj : j < 2)
    (hin : Named (fileMem 1024 (rootDevice full) (Minix3.getInode 1024 (rootDevice full) 1)) name i)
    (hjn : Named (fileMem 1024 (rootDevice full) (Minix3.getInode 1024 (rootDevice full) 1)) name j) :
    i = j := by
  have hsame {o : ℕ} (ho : o ≤ name.chars.length) :=
    (root_named hi hin ho).trans (root_named hj hjn ho).symm
  have hnonempty : 1 ≤ name.chars.length := by
    by_contra hempty
    have hnil : name.chars = [] := List.length_eq_zero_iff.mp (by omega)
    have hfirst := root_named hi hin (Nat.zero_le _)
    rw [hnil] at hfirst
    revert hfirst
    clear hsame hin hjn
    revert full
    interval_cases i <;> decide
  have hsecond := hsame hnonempty
  revert hsecond
  clear hsame hin hjn
  revert full
  interval_cases i <;> interval_cases j <;> decide

theorem root_directory :
    Directory 1024 (rootDevice full) (Minix3.getInode 1024 (rootDevice full) 1) where
  sound := (root_consistent full).sound
    ⟨by cases full <;> decide, by cases full <;> decide⟩ (root_whole full)
  block := ⟨4, rfl⟩
  size := by
    rw [root_size]
    exact Nat.dvd_mul_left _ _
  blank k hk hlast := by
    rw [root_size] at hk hlast
    simp only [dirEntrySize] at hk hlast
    have hbyte : fileMem 1024 (rootDevice full) (Minix3.getInode 1024 (rootDevice full) 1) k
        = rootDevice full (5120 + k) := root_byte (by omega)
    rw [fileMem] at hbyte
    rw [hbyte]
    exact rootDevice_blank (by omega)
  terminated j hj _ := by
    rw [root_entries] at hj
    refine ⟨2, by decide, ?_⟩
    rw [root_byte (by simp only [dirEntrySize]; omega)]
    revert full
    interval_cases j <;> decide
  names i j name hi hj := by
    rw [root_entries] at hi hj
    exact root_names hi hj

theorem root_reachable (h : Reachable 1024 (rootDevice full) n) : n = 1 := by
  induction h with
  | root => rfl
  | step _ hbinds _ ih =>
    obtain ⟨j, hj, -, rfl⟩ := ih ▸ hbinds
    exact root_inode (hj.trans_eq root_entries)

theorem root_tree : Tree 1024 (rootDevice full) where
  toConsistent := root_consistent full
  root := by cases full <;> exact ⟨⟨by decide, by decide⟩, by decide⟩
  directory n hn := by
    obtain rfl := root_reachable hn
    exact root_directory
  entry n child name hn hbinds := by
    obtain rfl := root_reachable hn
    obtain ⟨j, hj, -, rfl⟩ := hbinds
    rw [root_inode (hj.trans_eq root_entries)]
    cases full <;> exact ⟨by decide, by decide⟩

end Device

end Minix3.FileOps
