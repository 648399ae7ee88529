import Mathlib

/-! # A segment cut into cells

Cells lie one after the other, each as long as its start says, and fill a segment. -/
namespace Tiling

variable {len len' : ℕ → ℕ} {a b c d m : ℕ} {xs ys cells : List ℕ}

/-- The segment from `a` to `b` is filled by the cells that start at these places. -/
def Tiled (len : ℕ → ℕ) : ℕ → List ℕ → ℕ → Prop
  | a, [], b => a = b
  | a, c :: cells, b => c = a ∧ Tiled len (a + len a) cells b

theorem tiled_append :
    Tiled len a (xs ++ ys) b ↔ ∃ m, Tiled len a xs m ∧ Tiled len m ys b := by
  induction xs generalizing a with
  | nil => simp [Tiled]
  | cons x xs ih => simp [Tiled, ih, and_assoc]

theorem tiled_middle :
    Tiled len a (xs ++ c :: ys) b ↔ Tiled len a xs c ∧ Tiled len (c + len c) ys b := by
  rw [tiled_append]
  constructor
  · rintro ⟨m, hxs, rfl, hys⟩
    exact ⟨hxs, hys⟩
  · rintro ⟨hxs, hys⟩
    exact ⟨c, hxs, rfl, hys⟩

theorem Tiled.le (h : Tiled len a cells b) : a ≤ b := by
  induction cells generalizing a with
  | nil => exact Nat.le_of_eq h
  | cons c cells ih => exact (Nat.le_add_right a (len a)).trans (ih h.2)

/-- Only the lengths at the starts of the cells matter. -/
theorem Tiled.congr (h : Tiled len a cells b) (hl : ∀ c ∈ cells, len' c = len c) :
    Tiled len' a cells b := by
  induction cells generalizing a with
  | nil => exact h
  | cons c cells ih =>
    obtain ⟨rfl, h⟩ := h
    refine ⟨rfl, ?_⟩
    rw [hl c List.mem_cons_self]
    exact ih h fun d hd => hl d (List.mem_cons_of_mem c hd)

theorem Tiled.bounds (h : Tiled len a cells b) (hc : c ∈ cells) : a ≤ c ∧ c + len c ≤ b := by
  obtain ⟨xs, ys, rfl⟩ := List.append_of_mem hc
  obtain ⟨hxs, hys⟩ := tiled_middle.1 h
  exact ⟨hxs.le, hys.le⟩

theorem Tiled.pairwise (h : Tiled len a cells b) :
    cells.Pairwise fun c d => c + len c ≤ d := by
  induction cells generalizing a with
  | nil => exact List.Pairwise.nil
  | cons c cells ih =>
    obtain ⟨rfl, h⟩ := h
    exact List.pairwise_cons.2 ⟨fun d hd => (h.bounds hd).1, ih h⟩

/-- Two cells do not overlap. -/
theorem Tiled.apart (h : Tiled len a cells b) (hc : c ∈ cells) (hd : d ∈ cells) (hne : c ≠ d) :
    c + len c ≤ d ∨ d + len d ≤ c := by
  obtain ⟨xs, ys, rfl⟩ := List.append_of_mem hc
  obtain ⟨hxs, hys⟩ := tiled_middle.1 h
  rcases List.mem_append.1 hd with hd | hd
  · exact Or.inr (hxs.bounds hd).2
  · rcases List.mem_cons.1 hd with rfl | hd
    · exact absurd rfl hne
    · exact Or.inl (hys.bounds hd).1

/-- The cell that ends where the segment does comes last. -/
theorem Tiled.last_cell (h : Tiled len a cells b) (hpos : ∀ c ∈ cells, 0 < len c)
    (hc : c ∈ cells) (hb : c + len c = b) : ∃ xs, cells = xs ++ [c] := by
  obtain ⟨xs, ys, rfl⟩ := List.append_of_mem hc
  obtain ⟨hxs, hys⟩ := tiled_middle.1 h
  cases ys with
  | nil => exact ⟨xs, rfl⟩
  | cons y ys =>
    have := (hys.bounds List.mem_cons_self).2
    have := hpos y (by simp)
    have := hys.1
    omega

theorem Tiled.dvd {k : ℕ} (h : Tiled len a cells b) (ha : k ∣ a) (hl : ∀ c ∈ cells, k ∣ len c)
    (hc : c ∈ cells) : k ∣ c := by
  induction cells generalizing a with
  | nil => exact absurd hc List.not_mem_nil
  | cons d cells ih =>
    obtain ⟨rfl, h⟩ := h
    rcases List.mem_cons.1 hc with rfl | hc
    · exact ha
    · exact ih h (Nat.dvd_add ha (hl d List.mem_cons_self))
        (fun e he => hl e (List.mem_cons_of_mem d he)) hc

/-- A segment has room for so many cells only. -/
theorem Tiled.length_le (h : Tiled len a cells b) (hm : ∀ c ∈ cells, m ≤ len c) :
    a + cells.length * m ≤ b := by
  induction cells generalizing a with
  | nil => simpa [Tiled] using Nat.le_of_eq h
  | cons c cells ih =>
    obtain ⟨rfl, h⟩ := h
    have := ih h fun d hd => hm d (List.mem_cons_of_mem c hd)
    have := hm c List.mem_cons_self
    rw [List.length_cons, Nat.add_mul]
    omega

end Tiling
