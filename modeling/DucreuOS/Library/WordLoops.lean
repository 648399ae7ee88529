import Mathlib

/-! # Loops up to an inclusive bound

A loop counts with a machine word up to a last value. When the last value is the greatest word
the test never fails. -/
namespace WordLoops

variable {w : ℕ} {σ : Type*}

/-- `for(i = first; i <= last; i++)`, of which `fuel` tests are made at most. -/
def upTo (body : BitVec w → σ → Option σ) (last : BitVec w) : ℕ → BitVec w → σ → Option σ
  | 0, _, _ => none
  | n + 1, i, s => if i ≤ last then (body i s).bind (upTo body last n (i + 1)) else some s

/-- The values with which the body runs. -/
def counters (first last : BitVec w) : List (BitVec w) :=
  (List.range' first.toNat (last.toNat + 1 - first.toNat)).map (BitVec.ofNat w)

variable {body : BitVec w → σ → Option σ} {first last i : BitVec w} {fuel : ℕ} {s t : σ}

theorem ofNat_self (i : BitVec w) : BitVec.ofNat w i.toNat = i := by
  rw [BitVec.ofNat_toNat, BitVec.setWidth_eq]

theorem mem_counters : i ∈ counters first last ↔ first ≤ i ∧ i ≤ last := by
  simp only [counters, List.mem_map, List.mem_range'_1, BitVec.le_def]
  constructor
  · rintro ⟨n, hn, rfl⟩
    have hlast := last.isLt
    rw [BitVec.toNat_ofNat, Nat.mod_eq_of_lt (by omega)]
    omega
  · intro h
    exact ⟨i.toNat, by omega, ofNat_self i⟩

theorem counters_eq_nil : counters first last = [] ↔ last < first := by
  simp only [counters, List.map_eq_nil_iff, List.range'_eq_nil_iff, BitVec.lt_def]
  omega

theorem counters_cons (hle : first ≤ last) (hlast : last ≠ BitVec.allOnes w) :
    counters first last = first :: counters (first + 1) last := by
  have hlt : first.toNat < 2 ^ w - 1 := by
    have hne : last.toNat ≠ 2 ^ w - 1 := fun h =>
      hlast (BitVec.eq_of_toNat_eq (h.trans BitVec.toNat_allOnes.symm))
    have := last.isLt
    rw [BitVec.le_def] at hle
    omega
  have hsucc : (first + 1).toNat = first.toNat + 1 := by
    have htwo : 1 < 2 ^ w := by omega
    have hone : (1 : BitVec w).toNat = 1 := Nat.mod_eq_of_lt htwo
    rw [BitVec.toNat_add, hone, Nat.mod_eq_of_lt (by omega)]
  rw [BitVec.le_def] at hle
  have hlen : last.toNat + 1 - first.toNat = (last.toNat + 1 - (first.toNat + 1)) + 1 := by omega
  rw [counters, hlen, List.range'_succ, List.map_cons, counters, hsucc, ofNat_self]

/-- When and with what the loop ends. -/
theorem upTo_eq_some : upTo body last fuel first s = some t ↔ last ≠ BitVec.allOnes w ∧
    (counters first last).length < fuel ∧
    (counters first last).foldlM (fun s i => body i s) s = some t := by
  induction fuel generalizing first s with
  | zero => simp [upTo]
  | succ n ih =>
    by_cases hle : first ≤ last
    · simp only [upTo, if_pos hle, Option.bind_eq_some_iff, ih]
      by_cases hlast : last = BitVec.allOnes w
      · simp [hlast]
      · simp only [counters_cons hle hlast, List.length_cons, List.foldlM_cons, ne_eq, hlast,
          not_false_eq_true, true_and, Option.bind_eq_bind, Option.bind_eq_some_iff,
          Nat.add_lt_add_iff_right]
        constructor
        · rintro ⟨u, hu, hlen, hrest⟩
          exact ⟨hlen, u, hu, hrest⟩
        · rintro ⟨hlen, u, hu, hrest⟩
          exact ⟨u, hu, hlen, hrest⟩
    · have hnil : counters first last = [] := counters_eq_nil.2 (BitVec.not_le.1 hle)
      have hlast : last ≠ BitVec.allOnes w := by
        rintro rfl
        have := first.isLt
        rw [BitVec.le_def, BitVec.toNat_allOnes] at hle
        omega
      simp [upTo, hle, hnil, hlast]

/-- A loop whose body has a result. -/
theorem foldlM_some (f : BitVec w → σ → σ) (l : List (BitVec w)) (s : σ) :
    l.foldlM (fun s i => some (f i s)) s = some (l.foldl (fun s i => f i s) s) := by
  induction l generalizing s with
  | nil => rfl
  | cons i l ih => exact ih (f i s)

/-- Two nested loops over a box. -/
theorem nest_eq_some {draw : BitVec w → BitVec w → σ → σ} {left right top bot : BitVec w} :
    upTo (fun row => upTo (fun col s => some (draw row col s)) right fuel left) bot fuel top s
      = some t ↔ bot ≠ BitVec.allOnes w ∧ (counters top bot).length < fuel ∧
        (bot < top ∨ right ≠ BitVec.allOnes w ∧ (counters left right).length < fuel) ∧
        (counters top bot).foldl
          (fun s row => (counters left right).foldl (fun s col => draw row col s) s) s = t := by
  rw [upTo_eq_some, ← counters_eq_nil]
  by_cases hr : right ≠ BitVec.allOnes w ∧ (counters left right).length < fuel
  · have hbody (row : BitVec w) (s : σ) :
        upTo (fun col s => some (draw row col s)) right fuel left s
          = some ((counters left right).foldl (fun s col => draw row col s) s) :=
      upTo_eq_some.2 ⟨hr.1, hr.2, foldlM_some (draw row) (counters left right) s⟩
    simp only [hbody, foldlM_some, Option.some.injEq, hr, or_true, true_and, ne_eq,
      not_false_eq_true]
  · have hbody (row : BitVec w) (s : σ) :
        upTo (fun col s => some (draw row col s)) right fuel left s = none := by
      rw [Option.eq_none_iff_forall_ne_some]
      intro u hu
      obtain ⟨hmax, hlen, -⟩ := upTo_eq_some.1 hu
      exact hr ⟨hmax, hlen⟩
    cases hrows : counters top bot with
    | nil => simp
    | cons row rows => simp [hbody, hr]

/-- With as many tests as they need, the loops end unless they count up to the greatest word. -/
theorem nest_ends {draw : BitVec w → BitVec w → σ → σ} {left right top bot : BitVec w} :
    (∃ fuel, upTo (fun row => upTo (fun col s => some (draw row col s)) right fuel left) bot fuel
        top s = some t) ↔
      bot ≠ BitVec.allOnes w ∧ (bot < top ∨ right ≠ BitVec.allOnes w) ∧
        (counters top bot).foldl
          (fun s row => (counters left right).foldl (fun s col => draw row col s) s) s = t := by
  simp only [nest_eq_some]
  constructor
  · rintro ⟨fuel, hbot, -, hright, ht⟩
    exact ⟨hbot, hright.imp_right And.left, ht⟩
  · rintro ⟨hbot, hright, ht⟩
    refine ⟨(counters top bot).length + (counters left right).length + 1, hbot, by omega, ?_, ht⟩
    exact hright.imp_right fun h => ⟨h, by omega⟩

end WordLoops
