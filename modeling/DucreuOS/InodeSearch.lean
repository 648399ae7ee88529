import DucreuOS.Library.CursorSearch
import DucreuOS.Minix3

/-! # The search for a free inode

`minix3_get_available_inode` for every superblock, bitmap and cursor. The range test is one too
wide: inode `N + 1` of a device with `N` inodes passes it, and a search that comes to it with its
bit clear returns it. -/
namespace Minix3

open ByteMemory CursorSearch

variable {bs : ℕ} {disk : Mem} {cursor n z : Word} {fs : Fs}

/-- The inode has an entry in the table. -/
def InTable (disk : Mem) (n : Word) : Prop :=
  n ≠ 0 ∧ n.toNat ≤ (getSuperblock disk).numInodes.toNat

instance (disk : Mem) (n : Word) : Decidable (InTable disk n) :=
  inferInstanceAs (Decidable (_ ∧ _))

def FreeInode (bs : ℕ) (disk : Mem) (n : Word) : Prop :=
  InTable disk n ∧ isInodeOccupied bs disk n = false

/-- Where the search for an inode begins. -/
def inodeSearchStart (fs : Fs) : Word :=
  if isInodeInRange fs.disk fs.inodeCursor then fs.inodeCursor else 1

/-- The number behind the last inode. -/
def pastInodes (disk : Mem) : Word := (getSuperblock disk).numInodes + 1

/-- The number behind the last inode is 0 or marked, or a free inode lies where the search begins
or behind. -/
def StaysInTable (bs : ℕ) (fs : Fs) : Prop :=
  pastInodes fs.disk = 0 ∨ isInodeOccupied bs fs.disk (pastInodes fs.disk) = true ∨
    ∃ n, FreeInode bs fs.disk n ∧ inodeSearchStart fs ≤ n

theorem InTable.pred (h : InTable disk n) : (n - 1).toNat = n.toNat - 1 ∧ 0 < n.toNat := by
  have hpos : 0 < n.toNat := by
    rw [Nat.pos_iff_ne_zero]
    exact fun he => h.1 (BitVec.eq_of_toNat_eq he)
  have := n.isLt
  rw [BitVec.toNat_sub]
  exact ⟨by change (2 ^ 32 - 1 + n.toNat) % 2 ^ 32 = _; omega, hpos⟩

theorem record_in_table (h : InTable disk n) :
    (getSuperblock disk).inodeStart bs ≤ inodeAddr bs disk n ∧
      inodeAddr bs disk n + inodeSize ≤
        (getSuperblock disk).inodeStart bs + (getSuperblock disk).numInodes.toNat * inodeSize := by
  have hle := h.2
  simp only [inodeAddr, inodeSize, h.pred.1]
  have := h.pred.2
  omega

theorem inodeInRange_iff : isInodeInRange disk n = true ↔
    n ≠ 0 ∧ n.toNat ≤ (getSuperblock disk).numInodes.toNat + 1 := by
  simp only [isInodeInRange, Bool.and_eq_true, decide_eq_true_eq, Bool.not_eq_true',
    decide_eq_false_iff_not, BitVec.lt_def, BitVec.toNat_sub]
  have := n.isLt
  refine and_congr_right fun hne => ?_
  have hpos : n.toNat ≠ 0 := fun he => hne (BitVec.eq_of_toNat_eq he)
  change ¬ _ < (2 ^ 32 - 1 + n.toNat) % 2 ^ 32 ↔ _
  omega

theorem one_in_range : isInodeInRange disk 1 = true :=
  inodeInRange_iff.mpr ⟨by decide, Nat.le_add_left 1 _⟩

theorem zero_not_in_range : isInodeInRange disk 0 = false := by
  rw [← Bool.not_eq_true, inodeInRange_iff]
  exact fun h => h.1 rfl

theorem inodeSearchStart_in_range (fs : Fs) :
    isInodeInRange fs.disk (inodeSearchStart fs) = true := by
  unfold inodeSearchStart
  split_ifs with h
  · exact h
  · exact one_in_range

theorem pastInodes_toNat (h : pastInodes disk ≠ 0) :
    (pastInodes disk).toNat = (getSuperblock disk).numInodes.toNat + 1 := by
  apply succ_toNat
  by_contra hw
  exact h (succ_wraps hw)

theorem pastInodes_not_in_table (disk : Mem) : ¬ InTable disk (pastInodes disk) := by
  rintro ⟨hne, hle⟩
  rw [pastInodes_toNat hne] at hle
  omega

/-- What is in range is in the table or right behind it. -/
theorem inTable_or_past (h : isInodeInRange disk n = true) :
    InTable disk n ∨ n = pastInodes disk ∧ pastInodes disk ≠ 0 := by
  obtain ⟨hne, hle⟩ := inodeInRange_iff.mp h
  by_cases hin : n.toNat ≤ (getSuperblock disk).numInodes.toNat
  · exact Or.inl ⟨hne, hin⟩
  · have hpast : n = pastInodes disk := by
      have := n.isLt
      have hone : (pastInodes disk).toNat = (getSuperblock disk).numInodes.toNat + 1 :=
        succ_toNat (by omega)
      apply BitVec.eq_of_toNat_eq
      omega
    exact Or.inr ⟨hpast, hpast ▸ hne⟩

theorem availableInodeFrom_eq (bs : ℕ) (disk : Mem) (k : ℕ) (cursor : Word) :
    availableInodeFrom bs disk k cursor
      = search (isInodeInRange disk) (isInodeOccupied bs disk) 1 k cursor := by
  induction k generalizing cursor with
  | zero => rfl
  | succ k ih => simp only [availableInodeFrom, search, ih]

/-- The first try resets a cursor that is out of range. -/
theorem availableInodeFrom_start (bs : ℕ) (fs : Fs) :
    availableInodeFrom bs fs.disk rounds fs.inodeCursor
      = search (isInodeInRange fs.disk) (isInodeOccupied bs fs.disk) 1 rounds
        (inodeSearchStart fs) := by
  rw [availableInodeFrom_eq]
  unfold inodeSearchStart
  split_ifs with h
  · rfl
  · exact search_reset _ (by simpa using h)

/-- The search from a number in range ends at the first free one ahead of it. -/
theorem inode_ahead (hc : isInodeInRange disk cursor = true) (hle : cursor.toNat ≤ n.toNat)
    (hr : isInodeInRange disk n = true) (hfree : isInodeOccupied bs disk n = false) (k : ℕ)
    (hk : n.toNat - cursor.toNat < k) :
    ∃ z, search (isInodeInRange disk) (isInodeOccupied bs disk) 1 k cursor = some z ∧
      cursor.toNat ≤ z.toNat ∧ z.toNat ≤ n.toNat := by
  have hlo := inodeInRange_iff.mp hc
  have hhi := inodeInRange_iff.mp hr
  have hrange (y : Word) (hcy : cursor.toNat ≤ y.toNat) (hyn : y.toNat ≤ n.toNat) :
      isInodeInRange disk y = true := by
    refine inodeInRange_iff.mpr ⟨?_, by omega⟩
    rintro rfl
    exact hlo.1 (BitVec.eq_of_toNat_eq (Nat.le_zero.mp hcy))
  obtain ⟨z, hz, hcz, hzn, -⟩ := search_ahead k hrange hle hfree hk
  exact ⟨z, hz, hcz, hzn⟩

/-- With a free inode in the table the search ends. -/
theorem inode_found (hc : isInodeInRange disk cursor = true) (hfree : FreeInode bs disk n) :
    ∃ z, search (isInodeInRange disk) (isInodeOccupied bs disk) 1 rounds cursor = some z := by
  have hpos := hfree.1.pred.2
  have hn := n.isLt
  have hr : isInodeInRange disk n = true :=
    inodeInRange_iff.mpr ⟨hfree.1.1, Nat.le_succ_of_le hfree.1.2⟩
  by_cases hahead : cursor.toNat ≤ n.toNat
  · obtain ⟨z, hz, -⟩ := inode_ahead hc hahead hr hfree.2 rounds (by unfold rounds; omega)
    exact ⟨z, hz⟩
  · apply @search_round 32 _ _ 1 cursor (n.toNat - 1) (Or.inl zero_not_in_range)
    · intro k hk
      obtain ⟨z, hz, -⟩ := inode_ahead one_in_range hpos hr hfree.2 k hk
      exact ⟨z, hz⟩
    · unfold rounds
      omega

theorem getAvailableInode_eq {fs' : Fs} (h : getAvailableInode bs fs = some (fs', n)) :
    search (isInodeInRange fs.disk) (isInodeOccupied bs fs.disk) 1 rounds (inodeSearchStart fs)
      = some n := by
  rw [← availableInodeFrom_start]
  unfold getAvailableInode at h
  cases hs : availableInodeFrom bs fs.disk rounds fs.inodeCursor with
  | none => rw [hs] at h; cases h
  | some z =>
    rw [hs] at h
    exact congrArg some (congrArg Prod.snd (Option.some.inj h))

theorem getAvailableInode_of
    (h : search (isInodeInRange fs.disk) (isInodeOccupied bs fs.disk) 1 rounds (inodeSearchStart fs)
      = some n) : getAvailableInode bs fs = some ({ fs with inodeCursor := n }, n) := by
  rw [← availableInodeFrom_start] at h
  exact congrArg (Option.map _) h

/-- A search that comes to the number behind the last inode with its bit clear returns it. -/
theorem search_leaves (h : ¬ StaysInTable bs fs) :
    search (isInodeInRange fs.disk) (isInodeOccupied bs fs.disk) 1 rounds (inodeSearchStart fs)
      = some (pastInodes fs.disk) := by
  simp only [StaysInTable, not_or, not_exists, not_and, Bool.not_eq_true] at h
  obtain ⟨hne, hfree, hbehind⟩ := h
  have hpast := pastInodes_toNat hne
  have hstart := inodeInRange_iff.mp (inodeSearchStart_in_range fs)
  have hlt := (pastInodes fs.disk).isLt
  have hr : isInodeInRange fs.disk (pastInodes fs.disk) = true :=
    inodeInRange_iff.mpr ⟨hne, hpast.le⟩
  obtain ⟨z, hz, hcz, -⟩ := inode_ahead (inodeSearchStart_in_range fs) (hpast ▸ hstart.2) hr hfree
    rounds (by unfold rounds; omega)
  obtain ⟨hzr, hzfree⟩ := search_spec (Or.inl one_in_range) rounds hz
  rcases inTable_or_past hzr with hin | ⟨rfl, -⟩
  · exact absurd hcz (hbehind z ⟨hin, hzfree⟩)
  · exact hz

theorem stays_in_table (h : StaysInTable bs fs) (hz : search (isInodeInRange fs.disk)
      (isInodeOccupied bs fs.disk) 1 rounds (inodeSearchStart fs) = some z) :
    FreeInode bs fs.disk z := by
  obtain ⟨hzr, hzfree⟩ := search_spec (Or.inl one_in_range) rounds hz
  rcases inTable_or_past hzr with hin | ⟨rfl, hne⟩
  · exact ⟨hin, hzfree⟩
  · rcases h with hwrap | hocc | ⟨n, hn, hle⟩
    · exact absurd hwrap hne
    · rw [hzfree] at hocc
      cases hocc
    · -- a free inode ahead ends the search in front of the number behind the last
      have hle : (inodeSearchStart fs).toNat ≤ n.toNat := hle
      have hnlt := n.isLt
      obtain ⟨y, hy, -, hyn⟩ := inode_ahead (inodeSearchStart_in_range fs) hle
        (inodeInRange_iff.mpr ⟨hn.1.1, Nat.le_succ_of_le hn.1.2⟩) hn.2 rounds
        (by unfold rounds; omega)
      obtain rfl : pastInodes fs.disk = y := Option.some.inj (hz.symm.trans hy)
      have hpast := pastInodes_toNat hne
      have hnle := hn.1.2
      omega

/-- A call returns a free inode whenever there is one, and nothing but inodes whose records lie in
the table, exactly when the search stays in the table. -/
theorem availableInode_iff (bs : ℕ) (fs : Fs) :
    (((∃ n, FreeInode bs fs.disk n) →
        ∃ fs' n, getAvailableInode bs fs = some (fs', n) ∧ FreeInode bs fs.disk n) ∧
      ∀ fs' n, getAvailableInode bs fs = some (fs', n) → FreeInode bs fs.disk n ∧
        (getSuperblock fs.disk).inodeStart bs ≤ inodeAddr bs fs.disk n ∧
        inodeAddr bs fs.disk n + inodeSize ≤ (getSuperblock fs.disk).inodeStart bs +
          (getSuperblock fs.disk).numInodes.toNat * inodeSize) ↔
      StaysInTable bs fs := by
  constructor
  · rintro ⟨-, hall⟩
    by_contra hnot
    obtain ⟨hfree, -⟩ := hall _ _ (getAvailableInode_of (search_leaves hnot))
    exact pastInodes_not_in_table fs.disk hfree.1
  · intro h
    refine ⟨?_, fun fs' n hcall => ?_⟩
    · rintro ⟨n, hn⟩
      obtain ⟨z, hz⟩ := inode_found (inodeSearchStart_in_range fs) hn
      exact ⟨_, z, getAvailableInode_of hz, stays_in_table h hz⟩
    · have hfree := stays_in_table h (getAvailableInode_eq hcall)
      exact ⟨hfree, record_in_table hfree.1⟩

/-- A device with two inodes and no bit set. -/
def twoInodes : Mem := fun x => if x = 1024 then 2 else if x = 1030 then 1 else 0

/-- With both inodes taken and marked the next search returns inode 3, and it does so again after
inode 1 is given back. -/
theorem availableInode_leaves : ∃ fs₁ fs₂ fs₃ fs₄ : Fs,
    getAvailableInode 1024 ⟨twoInodes, 0, 1⟩ = some (fs₁, 1) ∧
    getAvailableInode 1024 { fs₁ with disk := setInodeOccupied 1024 fs₁.disk 1 } = some (fs₂, 2) ∧
    getAvailableInode 1024 { fs₂ with disk := setInodeOccupied 1024 fs₂.disk 2 } = some (fs₃, 3) ∧
    ¬ InTable fs₃.disk 3 ∧
    fs₄ = { fs₃ with disk := setInodeUnoccupied 1024 fs₃.disk 1 } ∧
    FreeInode 1024 fs₄.disk 1 ∧ getAvailableInode 1024 fs₄ = some (fs₄, 3) := by
  let d₁ := setInodeOccupied 1024 twoInodes 1
  let d₂ := setInodeOccupied 1024 d₁ 2
  refine ⟨⟨twoInodes, 0, 1⟩, ⟨d₁, 0, 2⟩, ⟨d₂, 0, 3⟩, ⟨setInodeUnoccupied 1024 d₂ 1, 0, 3⟩,
    getAvailableInode_of ?_, getAvailableInode_of ?_, getAvailableInode_of ?_, ?_, rfl,
    ⟨⟨by decide, by decide⟩, by decide⟩, getAvailableInode_of ?_⟩
  all_goals decide

end Minix3
