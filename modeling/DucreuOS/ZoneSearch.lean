import DucreuOS.ZoneTree

/-! # The search for a free zone

`minix3_get_available_zone` for every superblock, bitmap and cursor. The reset of the cursor to 0
only comes back to the device when its first data zone is 0 or 1: otherwise the search runs
round zones 0 and 1 for ever. -/
namespace Minix3

open ByteMemory CursorSearch

variable {bs : ℕ} {disk : Mem} {zone cursor : Word} {fs : Fs}

def FreeZone (bs : ℕ) (disk : Mem) (zone : Word) : Prop :=
  isZoneInRange disk zone = true ∧ isZoneOccupied bs disk zone = false

/-- The first data zone is 0 or 1, or a free zone lies where the search begins or behind. -/
def Findable (bs : ℕ) (fs : Fs) : Prop :=
  (getSuperblock fs.disk).firstZone ≤ 1 ∨
    ∃ zone, FreeZone bs fs.disk zone ∧ (getSuperblock fs.disk).firstZone ≤ searchStart fs ∧
      searchStart fs ≤ zone

/-- A cursor that has left the device starts again at zone 0. -/
theorem availableZoneFrom_reset (n : ℕ) (h : isZoneInRange disk cursor = false) :
    availableZoneFrom bs disk (n + 1) cursor = availableZoneFrom bs disk (n + 1) 0 := by
  rw [availableZoneFrom_eq, availableZoneFrom_eq]
  exact search_reset n h

theorem zero_outside (h : 0 < (getSuperblock disk).firstZone.toNat) :
    isZoneInRange disk 0 = false := by
  rw [← Bool.not_eq_true, inRange_iff]
  rintro ⟨hle, -⟩
  have : (getSuperblock disk).firstZone.toNat ≤ 0 := hle
  omega

theorem availableZoneFrom_pass (n : ℕ) (h : 0 < (getSuperblock disk).firstZone.toNat) :
    availableZoneFrom bs disk (n + 1) 0 = availableZoneFrom bs disk n 1 := by
  simp only [availableZoneFrom, zero_outside h, zero_occupied h, Bool.not_false, Bool.not_true,
    Bool.false_eq_true, if_true, if_false]
  rfl

/-- With zone 1 in front of the first data zone, a search with no free zone ahead never ends. -/
theorem availableZoneFrom_none (hfirst : 1 < (getSuperblock disk).firstZone.toNat) (n : ℕ)
    (hnone : ∀ zone, FreeZone bs disk zone → (getSuperblock disk).firstZone.toNat ≤ cursor.toNat →
      zone.toNat < cursor.toNat) :
    availableZoneFrom bs disk n cursor = none := by
  induction n generalizing cursor with
  | zero => rfl
  | succ n ih =>
    by_cases hr : isZoneInRange disk cursor = true
    · have hfc := (inRange_iff.mp hr).1
      have hocc : isZoneOccupied bs disk cursor = true := by
        by_contra hfree
        exact absurd (hnone cursor ⟨hr, by simpa using hfree⟩ hfc) (Nat.lt_irrefl _)
      rw [availableZoneFrom_eq, search_occupied n hr hocc, ← availableZoneFrom_eq]
      apply ih
      intro zone hz hle
      have hlt := hnone zone hz hfc
      by_cases hw : cursor.toNat + 1 < 2 ^ 32
      · rw [succ_toNat hw]
        exact Nat.lt_succ_of_lt hlt
      · -- the cursor wrapped to 0
        rw [succ_wraps hw] at hle
        have hzero : (getSuperblock disk).firstZone.toNat ≤ 0 := hle
        omega
    · rw [availableZoneFrom_reset n (by simpa using hr), availableZoneFrom_pass n (by omega)]
      apply ih
      intro zone _ hle
      have : (getSuperblock disk).firstZone.toNat ≤ 1 := hle
      omega

/-- With the first data zone at 0 or 1 the search from zone 0 finds a free zone. -/
theorem availableZoneFrom_zero (hfirst : (getSuperblock disk).firstZone.toNat ≤ 1)
    (hz : FreeZone bs disk zone) (n : ℕ) (hn : zone.toNat < n) :
    ∃ z, availableZoneFrom bs disk n 0 = some z := by
  obtain ⟨hlo, hhi⟩ := inRange_iff.mp hz.1
  by_cases h0 : (getSuperblock disk).firstZone.toNat = 0
  · obtain ⟨z, hfound, -⟩ := @availableZoneFrom_ahead bs disk zone 0 n (Nat.le_of_eq h0)
      (Nat.zero_le _) hz.1 hz.2 (by simpa using hn)
    exact ⟨z, hfound⟩
  · obtain ⟨m, rfl⟩ : ∃ m, n = m + 1 := Nat.exists_eq_succ_of_ne_zero (Nat.ne_of_gt (by omega))
    obtain ⟨z, hfound, -⟩ := @availableZoneFrom_ahead bs disk zone 1 m (by simpa using hfirst)
      (by change 1 ≤ zone.toNat; omega) hz.1 hz.2 (by change zone.toNat - 1 < m; omega)
    exact ⟨z, (availableZoneFrom_pass m (by omega)).trans hfound⟩

/-- From any cursor it runs to the end of the device and then from zone 0. -/
theorem availableZoneFrom_round (hfirst : (getSuperblock disk).firstZone.toNat ≤ 1)
    (hz : FreeZone bs disk zone) (n : ℕ) (hn : zone.toNat + (2 ^ 32 - cursor.toNat) < n) :
    ∃ z, availableZoneFrom bs disk n cursor = some z := by
  rw [availableZoneFrom_eq]
  apply @search_round 32 _ _ 0 cursor zone.toNat (Or.inr rfl)
  · intro k hk
    rw [← availableZoneFrom_eq]
    exact availableZoneFrom_zero hfirst hz k hk
  · exact hn

theorem availableZone_found (hz : FreeZone bs fs.disk zone) (h : Findable bs fs) :
    ∃ z, availableZoneFrom bs fs.disk rounds (searchStart fs) = some z := by
  have hlt := zone.isLt
  have hstart := (searchStart fs).isLt
  rcases h with hfirst | ⟨ahead, hfree, hfirst, hle⟩
  · have hfirst : (getSuperblock fs.disk).firstZone.toNat ≤ 1 := hfirst
    by_cases hahead : zone.toNat ≤ (searchStart fs).toNat
    · exact availableZoneFrom_round hfirst hz rounds (by unfold rounds; omega)
    · by_cases hr : isZoneInRange fs.disk (searchStart fs) = true
      · obtain ⟨z, hfound, -⟩ := availableZoneFrom_ahead rounds (inRange_iff.mp hr).1
          (by omega) hz.1 hz.2 (by unfold rounds; omega)
        exact ⟨z, hfound⟩
      · rw [rounds, availableZoneFrom_reset _ (by simpa using hr)]
        exact availableZoneFrom_zero hfirst hz _ (by omega)
  · obtain ⟨z, hfound, -⟩ := availableZoneFrom_ahead rounds hfirst hle hfree.1 hfree.2
      (by have := ahead.isLt; unfold rounds; omega)
    exact ⟨z, hfound⟩

theorem getAvailableZone_of
    (h : availableZoneFrom bs fs.disk rounds (searchStart fs) = some zone) :
    getAvailableZone bs fs
      = some ({ fs with disk := setZoneToZero bs fs.disk zone, zoneCursor := zone }, zone) :=
  congrArg (Option.map _) h

theorem getAvailableZone_none
    (h : ∀ n, availableZoneFrom bs fs.disk n (searchStart fs) = none) :
    getAvailableZone bs fs = none := congrArg (Option.map _) (h rounds)

/-- With a free zone on the device the call returns one exactly when the search can find it; a
call that does not return is a loop that never ends. -/
theorem availableZone_iff (bs : ℕ) (fs : Fs) (hfree : ∃ zone, FreeZone bs fs.disk zone) :
    ((∃ fs' zone, getAvailableZone bs fs = some (fs', zone) ∧ FreeZone bs fs.disk zone ∧
        (getSuperblock fs.disk).firstZone ≤ zone) ↔ Findable bs fs) ∧
      (¬ Findable bs fs → ∀ n, availableZoneFrom bs fs.disk n (searchStart fs) = none) := by
  obtain ⟨zone, hz⟩ := hfree
  have hnever : ¬ Findable bs fs → ∀ n, availableZoneFrom bs fs.disk n (searchStart fs) = none := by
    intro hnot n
    have hfirst : 1 < (getSuperblock fs.disk).firstZone.toNat := by
      by_contra hle
      exact hnot (Or.inl (not_lt.mp hle))
    apply availableZoneFrom_none hfirst
    intro z hz hle
    by_contra hge
    exact hnot (Or.inr ⟨z, hz, hle, not_lt.mp hge⟩)
  refine ⟨⟨?_, fun h => ?_⟩, hnever⟩
  · rintro ⟨fs', z, hcall, -⟩
    by_contra hnot
    rw [getAvailableZone_none (hnever hnot)] at hcall
    cases hcall
  · obtain ⟨z, hfound⟩ := availableZone_found hz h
    have hzero : isZoneInRange fs.disk 0 = true ∨ isZoneOccupied bs fs.disk 0 = true := by
      by_cases h0 : (getSuperblock fs.disk).firstZone.toNat = 0
      · have := inRange_iff.mp hz.1
        refine Or.inl (inRange_iff.mpr ⟨Nat.le_of_eq h0, ?_⟩)
        change 0 < _
        omega
      · exact Or.inr (zero_occupied (Nat.pos_of_ne_zero h0))
    have hspec := availableZoneFrom_spec hzero _ _ hfound
    exact ⟨_, z, getAvailableZone_of hfound, hspec, (inRange_iff.mp hspec.1).1⟩

/-- A device with two data zones, 5 and 6, and no zone in use. -/
def smallDevice : Mem := fun x =>
  if x = 1024 then 16 else if x = 1030 then 1 else if x = 1032 then 1
  else if x = 1034 then 5 else if x = 1044 then 2 else 0

theorem availableZone_iff_small : (∃ zone, FreeZone 1024 smallDevice zone) ∧
    ((∃ fs' zone, getAvailableZone 1024 ⟨smallDevice, 0, 1⟩ = some (fs', zone) ∧
        FreeZone 1024 smallDevice zone ∧ (getSuperblock smallDevice).firstZone ≤ zone) ↔
      Findable 1024 ⟨smallDevice, 0, 1⟩) := by
  have hfree : ∃ zone, FreeZone 1024 smallDevice zone := ⟨5, by decide, by decide⟩
  exact ⟨hfree, (availableZone_iff 1024 ⟨smallDevice, 0, 1⟩ hfree).1⟩

/-- Both zones are taken and marked, and zone 5 is given back: the next search never ends. -/
theorem availableZone_loops : ∃ fs₁ fs₂ fs₃ : Fs,
    getAvailableZone 1024 ⟨smallDevice, 0, 1⟩ = some (fs₁, 5) ∧
    getAvailableZone 1024 { fs₁ with disk := setZoneOccupied 1024 fs₁.disk 5 } = some (fs₂, 6) ∧
    fs₃ = { fs₂ with
      disk := setZoneUnoccupied 1024 (setZoneOccupied 1024 fs₂.disk 6) 5 } ∧
    FreeZone 1024 fs₃.disk 5 ∧ getAvailableZone 1024 fs₃ = none ∧
    ∀ n, availableZoneFrom 1024 fs₃.disk n (searchStart fs₃) = none := by
  let fs₁ : Fs := ⟨setZoneToZero 1024 smallDevice 5, 5, 1⟩
  let fs₂ : Fs := ⟨setZoneToZero 1024 (setZoneOccupied 1024 fs₁.disk 5) 6, 6, 1⟩
  let fs₃ : Fs := ⟨setZoneUnoccupied 1024 (setZoneOccupied 1024 fs₂.disk 6) 5, 6, 1⟩
  have hnever (n : ℕ) : availableZoneFrom 1024 fs₃.disk n (searchStart fs₃) = none := by
    apply availableZoneFrom_none (by decide)
    rintro zone ⟨hr, hfree⟩ -
    have hrange := inRange_iff.mp hr
    have hfirst : (getSuperblock fs₃.disk).firstZone.toNat = 5 := by decide
    have hzones : (getSuperblock fs₃.disk).numZones.toNat = 2 := by decide
    rw [hfirst, hzones] at hrange
    change zone.toNat < 6
    have hne : zone ≠ 6 := by
      rintro rfl
      exact absurd hfree (by decide)
    have : zone.toNat ≠ 6 := fun he => hne (BitVec.eq_of_toNat_eq he)
    omega
  exact ⟨fs₁, fs₂, fs₃, getAvailableZone_of (by decide), getAvailableZone_of (by decide), rfl,
    ⟨by decide, by decide⟩, getAvailableZone_none hnever, hnever⟩

end Minix3
