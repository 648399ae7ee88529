import Mathlib

/-! # Searching with a cursor

A search tries number after number from a cursor on and ends at the first that is not occupied. A
cursor that has left the range goes back to a first number. -/
namespace CursorSearch

variable {w : ℕ} (inRange occupied : BitVec w → Bool) (first : BitVec w)

/-- What the search finds within so many tries. -/
def search : ℕ → BitVec w → Option (BitVec w)
  | 0, _ => none
  | n + 1, cursor =>
    let cursor := if !inRange cursor then first else cursor
    if !occupied cursor then some cursor else search n (cursor + 1)

variable {inRange occupied first} {cursor goal z : BitVec w} {m : ℕ}

theorem succ_toNat (h : cursor.toNat + 1 < 2 ^ w) : (cursor + 1).toNat = cursor.toNat + 1 := by
  have hlt : 1 < 2 ^ w := by omega
  have hone : (1 : BitVec w).toNat = 1 := Nat.mod_eq_of_lt hlt
  rw [BitVec.toNat_add, hone, Nat.mod_eq_of_lt h]

theorem succ_wraps (h : ¬ cursor.toNat + 1 < 2 ^ w) : cursor + 1 = 0 := by
  have hlt := cursor.isLt
  have hlast : cursor.toNat = 2 ^ w - 1 := by omega
  apply BitVec.eq_of_toNat_eq
  rw [BitVec.toNat_add, hlast]
  change (2 ^ w - 1 + 1 % 2 ^ w) % 2 ^ w = 0 % 2 ^ w
  rw [Nat.add_mod_mod, Nat.sub_add_cancel Nat.one_le_two_pow, Nat.mod_self, Nat.zero_mod]

/-- A cursor that has left the range starts again. -/
theorem search_reset (n : ℕ) (h : inRange cursor = false) :
    search inRange occupied first (n + 1) cursor
      = search inRange occupied first (n + 1) first := by
  simp only [search, h, Bool.not_false, if_true, ite_self]

theorem search_occupied (n : ℕ) (hr : inRange cursor = true) (hocc : occupied cursor = true) :
    search inRange occupied first (n + 1) cursor
      = search inRange occupied first n (cursor + 1) := by
  simp only [search, hr, hocc, Bool.not_true, Bool.false_eq_true, if_false]

theorem search_free (n : ℕ) (hr : inRange cursor = true) (hfree : occupied cursor = false) :
    search inRange occupied first (n + 1) cursor = some cursor := by
  simp only [search, hr, hfree, Bool.not_true, Bool.not_false, Bool.false_eq_true, if_false,
    if_true]

theorem search_spec (hfirst : inRange first = true ∨ occupied first = true) (n : ℕ)
    (h : search inRange occupied first n cursor = some z) :
    inRange z = true ∧ occupied z = false := by
  induction n generalizing cursor with
  | zero => cases h
  | succ n ih =>
    -- the same holds from a cursor in range and from the first number
    have hstep (c : BitVec w) (hc : inRange c = true ∨ occupied c = true)
        (h : (if !occupied c then some c else search inRange occupied first n (c + 1)) = some z) :
        inRange z = true ∧ occupied z = false := by
      by_cases hocc : occupied c = true
      · simp only [hocc, Bool.not_true, Bool.false_eq_true, if_false] at h
        exact ih h
      · simp only [hocc, Bool.not_false, if_true] at h
        obtain rfl := Option.some.inj h
        exact ⟨hc.resolve_right hocc, by simpa using hocc⟩
    by_cases hr : inRange cursor = true
    · apply hstep cursor (Or.inl hr)
      simpa only [search, hr, Bool.not_true, Bool.false_eq_true, if_false] using h
    · apply hstep first hfirst
      simpa only [search, hr, Bool.not_false, if_true] using h

/-- It ends at the first free number between the cursor and one that is free. -/
theorem search_ahead (n : ℕ)
    (hrange : ∀ y : BitVec w, cursor.toNat ≤ y.toNat → y.toNat ≤ goal.toNat → inRange y = true)
    (hle : cursor.toNat ≤ goal.toNat) (hfree : occupied goal = false)
    (hn : goal.toNat - cursor.toNat < n) :
    ∃ z, search inRange occupied first n cursor = some z ∧ cursor.toNat ≤ z.toNat ∧
      z.toNat ≤ goal.toNat ∧
      ∀ y : BitVec w, cursor.toNat ≤ y.toNat → y.toNat < z.toNat → occupied y = true := by
  induction n generalizing cursor with
  | zero => omega
  | succ n ih =>
    have hr := hrange cursor le_rfl hle
    by_cases hocc : occupied cursor = true
    · have hne : cursor ≠ goal := by
        rintro rfl
        rw [hfree] at hocc
        cases hocc
      have hlt : cursor.toNat < goal.toNat :=
        lt_of_le_of_ne hle fun he => hne (BitVec.eq_of_toNat_eq he)
      have hsucc : (cursor + 1).toNat = cursor.toNat + 1 := succ_toNat (by have := goal.isLt; omega)
      obtain ⟨z, hz, hcz, hzle, hbefore⟩ :=
        @ih (cursor + 1) (fun y hy => hrange y (by omega)) (by omega) (by omega)
      refine ⟨z, (search_occupied n hr hocc).trans hz, by omega, hzle, fun y hy hyz => ?_⟩
      by_cases hyc : y.toNat = cursor.toNat
      · rwa [BitVec.eq_of_toNat_eq hyc]
      · exact hbefore y (by omega) hyz
    · have hfree : occupied cursor = false := by simpa using hocc
      exact ⟨cursor, search_free n hr hfree, le_rfl, hle, fun y hy hyz => by omega⟩

/-- From any cursor it runs to the end of the range and then from the first number. -/
theorem search_round (hzero : inRange 0 = false ∨ first = 0)
    (hfirst : ∀ n, m < n → ∃ z, search inRange occupied first n first = some z) (n : ℕ)
    (hn : m + (2 ^ w - cursor.toNat) < n) :
    ∃ z, search inRange occupied first n cursor = some z := by
  induction n generalizing cursor with
  | zero => omega
  | succ n ih =>
    have hlt := cursor.isLt
    by_cases hr : inRange cursor = true
    · by_cases hocc : occupied cursor = true
      · rw [search_occupied n hr hocc]
        by_cases hw : cursor.toNat + 1 < 2 ^ w
        · apply ih
          rw [succ_toNat hw]
          omega
        · rw [succ_wraps hw]
          rcases hzero with hzero | rfl
          · obtain ⟨k, rfl⟩ : ∃ k, n = k + 1 := Nat.exists_eq_succ_of_ne_zero (by omega)
            rw [search_reset k hzero]
            exact hfirst (k + 1) (by omega)
          · exact hfirst n (by omega)
      · exact ⟨cursor, search_free n hr (by simpa using hocc)⟩
    · rw [search_reset n (by simpa using hr)]
      exact hfirst (n + 1) (by omega)

end CursorSearch
