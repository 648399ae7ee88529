import Mathlib

/-! # Circular buffers

The window of `n` cells from `start` on in a buffer of `c` cells, taken round the end. -/
namespace CircularBuffer

variable {α : Type*} {cells cells' : ℕ → α} {c start n i j : ℕ}

def window (cells : ℕ → α) (c start n : ℕ) : List α :=
  (List.range n).map fun i => cells ((start + i) % c)

@[simp] theorem window_zero : window cells c start 0 = [] := rfl

@[simp] theorem length_window : (window cells c start n).length = n := by
  simp [window]

/-- Two places of one window are two cells. -/
theorem place_injective (hi : i < c) (hj : j < c) (h : (start + i) % c = (start + j) % c) :
    i = j := by
  have hmod : i % c = j % c := Nat.ModEq.add_left_cancel' start h
  rwa [Nat.mod_eq_of_lt hi, Nat.mod_eq_of_lt hj] at hmod

theorem window_congr (h : ∀ i < n, cells' ((start + i) % c) = cells ((start + i) % c)) :
    window cells' c start n = window cells c start n := by
  apply List.map_congr_left
  intro i hi
  exact h i (List.mem_range.1 hi)

/-- A cell written at the end of a window makes it one longer. -/
theorem window_append (hn : n < c) (x : α) :
    window (Function.update cells ((start + n) % c) x) c start (n + 1)
      = window cells c start n ++ [x] := by
  have hsame : window (Function.update cells ((start + n) % c) x) c start n
      = window cells c start n := by
    apply window_congr
    intro i hi
    apply Function.update_of_ne
    intro h
    have := place_injective (hi.trans hn) hn h
    omega
  have hlast : window (Function.update cells ((start + n) % c) x) c start (n + 1)
      = window (Function.update cells ((start + n) % c) x) c start n ++ [x] := by
    simp [window, List.range_succ]
  rw [hlast, hsame]

/-- A window is its first cell and the window after it. -/
theorem window_succ (hs : start < c) :
    window cells c start (n + 1) = cells start :: window cells c ((start + 1) % c) n := by
  have hmap : (List.range (n + 1)).map (fun i => cells ((start + i) % c))
      = cells (start % c) :: (List.range n).map fun i => cells ((start + (i + 1)) % c) := by
    rw [List.range_succ_eq_map, List.map_cons, List.map_map]
    rfl
  rw [window, hmap, Nat.mod_eq_of_lt hs, window]
  congr 1
  apply List.map_congr_left
  intro i _
  rw [Nat.mod_add_mod, Nat.add_assoc, Nat.add_comm 1 i]

/-- In a full buffer a cell written at the end takes the place of the first one. -/
theorem window_rotate (hs : start < c) (x : α) :
    window (Function.update cells start x) c ((start + 1) % c) c
      = (window cells c start c).tail ++ [x] := by
  obtain ⟨m, rfl⟩ : ∃ m, c = m + 1 :=
    Nat.exists_eq_succ_of_ne_zero (Nat.ne_of_gt (Nat.zero_lt_of_lt hs))
  have hplace : ((start + 1) % (m + 1) + m) % (m + 1) = start := by
    rw [Nat.mod_add_mod, Nat.add_assoc, Nat.add_comm 1 m, Nat.add_mod_right, Nat.mod_eq_of_lt hs]
  have happend :=
    @window_append _ cells (m + 1) ((start + 1) % (m + 1)) m (Nat.lt_succ_self m) x
  rw [hplace] at happend
  rw [happend, window_succ hs, List.tail_cons]

end CircularBuffer
