import DucreuOS.Rectangles

/-! # `gpu_fill_circle`

The box around a circle is scanned with a distance that goes through the integer square root of
`utils.c`. -/
namespace Gpu

open WordLoops

/-- The loop of `isqrt`, with the rounds it may take: `a` are enough. -/
def isqrtLoop (a : Word) : ℕ → Word → Word
  | 0, i => i
  | n + 1, i => if i < a then if i * i > a then i else isqrtLoop a n (i + 1) else i

def isqrt (a : Word) : Word := isqrtLoop a a.toNat 1 - 1

structure Circle where
  x : Word
  y : Word
  radius : Word

/-- `diag < c->radius`; the products of the `int32_t` differences are stored as `uint32_t`. -/
def inCircle (c : Circle) (row col : Word) : Bool :=
  let x_off := col - c.x
  let y_off := row - c.y
  let x_off2 := x_off * x_off
  let y_off2 := y_off * y_off
  let diag := isqrt (x_off2 + y_off2)
  diag < c.radius

def fillCircle (fuel : ℕ) (fb : FrameBuffer) (c : Circle) (color : Pixel) : Option FrameBuffer :=
  let c_left := c.x - c.radius
  let c_right := c.x + c.radius
  let c_top := c.y - c.radius
  let c_bot := c.y + c.radius
  upTo (fun row => upTo (fun col fb => some
    (if inCircle c row col then fb.write (fb.width * row + col) color else fb))
    c_right fuel c_left) c_bot fuel c_top fb

/-- The offsets that `fillCircle` stores to. -/
def circleOffsets (width : Word) (c : Circle) : List Word :=
  offsets width (counters (c.y - c.radius) (c.y + c.radius))
    (counters (c.x - c.radius) (c.x + c.radius)) (inCircle c)

variable {fb fb' : FrameBuffer} {c : Circle} {color : Pixel} {i : ℕ}

theorem fillCircle_leaves : Leaves (fun fuel => fillCircle fuel fb c color) fb' ↔
    c.y + c.radius ≠ BitVec.allOnes 32 ∧
      (c.y + c.radius < c.y - c.radius ∨ c.x + c.radius ≠ BitVec.allOnes 32) ∧
      fb.paint (circleOffsets fb.width c) color = fb' :=
  fill_leaves (inCircle c) (c.x - c.radius) (c.x + c.radius) (c.y - c.radius) (c.y + c.radius)

/-! ## The integer square root -/

theorem succ_toNat {a i : Word} (h : i < a) : (i + 1).toNat = i.toNat + 1 := by
  rw [BitVec.lt_def] at h
  change (i.toNat + 1) % 2 ^ 32 = _
  omega

/-- The square does not wrap. -/
theorem mul_self_toNat {i : Word} (h : i.toNat ≤ 65535) : (i * i).toNat = i.toNat * i.toNat := by
  rw [BitVec.toNat_mul, Nat.mod_eq_of_lt]
  calc i.toNat * i.toNat ≤ 65535 * 65535 := Nat.mul_le_mul h h
    _ < 2 ^ 32 := by norm_num

theorem isqrtLoop_toNat {a i : Word} (ha : 2 ≤ a.toNat) (hmax : a.toNat < 65535 * 65535) {n : ℕ}
    (hi : i.toNat ≤ Nat.sqrt a.toNat + 1) (hn : Nat.sqrt a.toNat + 1 ≤ n + i.toNat) :
    (isqrtLoop a n i).toNat = Nat.sqrt a.toNat + 1 := by
  have hroot : Nat.sqrt a.toNat < 65535 := Nat.sqrt_lt.2 hmax
  induction n generalizing i with
  | zero =>
    rw [isqrtLoop]
    omega
  | succ n ih =>
    have hsquare := mul_self_toNat (i := i) (by omega)
    rw [isqrtLoop]
    by_cases hlast : i.toNat = Nat.sqrt a.toNat + 1
    · have hgt : i * i > a := by
        rw [gt_iff_lt, BitVec.lt_def, hsquare, hlast]
        exact Nat.lt_succ_sqrt a.toNat
      rw [if_pos hgt, ite_self, hlast]
    · have hle : i.toNat ≤ Nat.sqrt a.toNat := by omega
      have hlt : i < a := lt_of_le_of_lt hle (Nat.sqrt_lt_self ha)
      have hngt : ¬ i * i > a := by
        rw [gt_iff_lt, BitVec.lt_def, hsquare, not_lt]
        exact Nat.le_sqrt.1 hle
      have hsucc := succ_toNat hlt
      rw [if_pos hlt, if_neg hngt]
      exact ih (by omega) (by omega)

theorem isqrt_toNat {a : Word} (ha : 2 ≤ a.toNat) (hmax : a.toNat < 65535 * 65535) :
    (isqrt a).toNat = Nat.sqrt a.toNat := by
  have hle : Nat.sqrt a.toNat ≤ a.toNat := Nat.sqrt_le_self a.toNat
  have hloop : (isqrtLoop a a.toNat 1).toNat = Nat.sqrt a.toNat + 1 :=
    isqrtLoop_toNat ha hmax (Nat.le_add_left 1 _) (Nat.add_le_add_right hle 1)
  have hone : (1 : Word) ≤ isqrtLoop a a.toNat 1 := by
    rw [BitVec.le_def, hloop]
    exact Nat.le_add_left 1 _
  rw [isqrt, BitVec.toNat_sub_of_le hone, hloop]
  rfl

/-- The root of 1 comes out as 0, every other one below `65535 * 65535` right. -/
theorem isqrt_lt_iff {a r : Word} (hmax : a.toNat < 65535 * 65535) :
    isqrt a < r ↔ a.toNat < r.toNat * r.toNat ∨ a.toNat = 1 ∧ r.toNat = 1 := by
  rw [BitVec.lt_def]
  by_cases ha : 2 ≤ a.toNat
  · rw [isqrt_toNat ha hmax, Nat.sqrt_lt]
    omega
  · have hzero : (isqrt a).toNat = 0 := by
      have hcases : a = 0 ∨ a = 1 := by
        rw [← BitVec.toNat_inj, ← BitVec.toNat_inj]
        change a.toNat = 0 ∨ a.toNat = 1
        omega
      rcases hcases with rfl | rfl <;> rfl
    rw [hzero]
    rcases Nat.lt_or_ge r.toNat 2 with hr | hr
    · interval_cases r.toNat <;> omega
    · have := Nat.mul_le_mul hr hr
      omega

/-- The loop of `isqrt` without a bound on its rounds; `none` if it has not ended yet. -/
def isqrtFrom (a : Word) : ℕ → Word → Option Word
  | 0, _ => none
  | n + 1, i => if i < a then if i * i > a then some i else isqrtFrom a n (i + 1) else some i

/-- The loop ends, and the call returns the greatest number whose square is at most `a`. -/
def ReturnsRoot (a : Word) : Prop :=
  ∃ n i, isqrtFrom a n 1 = some i ∧ (i - 1).toNat = Nat.sqrt a.toNat

/-- As many rounds as `isqrtLoop` may take are enough. -/
theorem isqrtFrom_ends {a i : Word} {n : ℕ} (hn : a.toNat ≤ n + i.toNat) :
    isqrtFrom a (n + 1) i = some (isqrtLoop a n i) := by
  induction n generalizing i with
  | zero =>
    have hend : ¬ i < a := by
      rw [BitVec.lt_def]
      omega
    rw [isqrtFrom, if_neg hend, isqrtLoop]
  | succ n ih =>
    rw [isqrtFrom, isqrtLoop]
    by_cases hlt : i < a
    · have hsucc := succ_toNat hlt
      rw [if_pos hlt, if_pos hlt, ih (by omega)]
      split_ifs <;> rfl
    · rw [if_neg hlt, if_neg hlt]

/-- It ends with one value, whatever the bound. -/
theorem isqrtFrom_eq {a i j : Word} {n m : ℕ} (hm : a.toNat ≤ m + i.toNat)
    (h : isqrtFrom a n i = some j) : j = isqrtLoop a m i := by
  induction n generalizing i m with
  | zero => cases h
  | succ n ih =>
    rw [isqrtFrom] at h
    by_cases hlt : i < a
    · obtain ⟨k, rfl⟩ : ∃ k, m = k + 1 := by
        rw [BitVec.lt_def] at hlt
        exact ⟨m - 1, by omega⟩
      have hsucc := succ_toNat hlt
      rw [isqrtLoop]
      rw [if_pos hlt] at h ⊢
      split_ifs at h ⊢ with hsquare
      · exact (Option.some.inj h).symm
      · exact ih (by omega) h
    · rw [if_neg hlt] at h
      cases m with
      | zero => exact (Option.some.inj h).symm
      | succ m => rw [isqrtLoop, if_neg hlt, Option.some.inj h]

theorem returnsRoot_iff {a : Word} : ReturnsRoot a ↔ (isqrt a).toNat = Nat.sqrt a.toNat := by
  have hrounds : a.toNat ≤ a.toNat + (1 : Word).toNat := Nat.le_add_right _ _
  constructor
  · rintro ⟨n, i, hend, hroot⟩
    rwa [isqrtFrom_eq hrounds hend] at hroot
  · exact fun hroot => ⟨a.toNat + 1, _, isqrtFrom_ends hrounds, hroot⟩

theorem le_isqrtLoop {a i : Word} {n : ℕ} : i.toNat ≤ (isqrtLoop a n i).toNat := by
  induction n generalizing i with
  | zero => exact le_rfl
  | succ n ih =>
    rw [isqrtLoop]
    split_ifs with hlt hsquare
    · exact le_rfl
    · have hsucc := succ_toNat hlt
      have hnext := ih (i := i + 1)
      omega
    · exact le_rfl

/-- No square of a number below `65536` is greater than `a`, and that of `65536` wraps to 0. -/
theorem isqrtLoop_passes {a i : Word} {n : ℕ} (hmax : 65535 * 65535 ≤ a.toNat)
    (hi : i.toNat ≤ 65536) (hn : 65537 ≤ n + i.toNat) : 65537 ≤ (isqrtLoop a n i).toNat := by
  induction n generalizing i with
  | zero => omega
  | succ n ih =>
    have hlt : i < a := by
      rw [BitVec.lt_def]
      omega
    have hsquare : ¬ i * i > a := by
      rw [gt_iff_lt, BitVec.lt_def, BitVec.toNat_mul, not_lt]
      rcases Nat.lt_or_ge i.toNat 65536 with hsmall | hlarge
      · have := Nat.mul_le_mul (Nat.le_of_lt_succ hsmall) (Nat.le_of_lt_succ hsmall)
        exact (Nat.mod_le _ _).trans (this.trans hmax)
      · have htop : i.toNat = 65536 := by omega
        rw [htop]
        exact Nat.zero_le _
    have hsucc := succ_toNat hlt
    rw [isqrtLoop, if_pos hlt, if_neg hsquare]
    rcases Nat.lt_or_ge i.toNat 65536 with hsmall | hlarge
    · exact ih (by omega) (by omega)
    · have hnext := le_isqrtLoop (a := a) (i := i + 1) (n := n)
      omega

/-- The loop always ends, with what `isqrt` says, and that is the root but for 1 and for the squares
from `65535 * 65535` on. -/
theorem isqrt_root_iff (a : Word) :
    (∃ n i, isqrtFrom a n 1 = some i ∧ i - 1 = isqrt a) ∧
      (ReturnsRoot a ↔ a ≠ 1 ∧ a.toNat < 65535 * 65535) := by
  have hends := isqrtFrom_ends (a := a) (i := 1) (n := a.toNat) (Nat.le_add_right _ _)
  refine ⟨⟨_, _, hends, rfl⟩, returnsRoot_iff.trans ⟨fun hroot => ⟨?_, ?_⟩, ?_⟩⟩
  · rintro rfl
    exact absurd hroot (by decide)
  · by_contra hmax
    rw [not_lt] at hmax
    have hpass := isqrtLoop_passes (i := 1) (n := a.toNat) hmax (by decide)
      (by change 65537 ≤ a.toNat + 1; omega)
    have hle : (1 : Word) ≤ isqrtLoop a a.toNat 1 := le_isqrtLoop
    have hsmall : Nat.sqrt a.toNat < 65536 := Nat.sqrt_lt.2 (by have := a.isLt; omega)
    rw [isqrt, BitVec.toNat_sub_of_le hle] at hroot
    change (isqrtLoop a a.toNat 1).toNat - 1 = _ at hroot
    omega
  · rintro ⟨hone, hmax⟩
    by_cases ha : 2 ≤ a.toNat
    · exact isqrt_toNat ha hmax
    · have hne : a.toNat ≠ 1 := fun h => hone (BitVec.eq_of_toNat_eq h)
      obtain rfl : a = 0 := BitVec.eq_of_toNat_eq (by change a.toNat = 0; omega)
      rfl

/-- The root of 1 is 1, and the call returns 0. -/
theorem root_of_one : ¬ ∀ a : Word, ReturnsRoot a := by
  intro h
  exact absurd (returnsRoot_iff.1 (h 1)) (by decide)

/-! ## The disc -/

/-- The square of the distance between the points `(row, col)` and `(y, x)`. -/
def squaredDistance (x y row col : ℕ) : ℤ := ((col : ℤ) - x) ^ 2 + ((row : ℤ) - y) ^ 2

/-- What the test of the loop amounts to near the centre. -/
def InDisc (x y r row col : ℕ) : Prop :=
  squaredDistance x y row col < r ^ 2 ∨ r = 1 ∧ squaredDistance x y row col = 1

theorem square_toNat {a b : Word} (h : |(a.toNat : ℤ) - b.toNat| < 2 ^ 15) :
    (((a - b) * (a - b)).toNat : ℤ) = ((a.toNat : ℤ) - b.toNat) ^ 2 := by
  rw [abs_lt] at h
  have hsmall (d : ℕ) (hd : d < 2 ^ 15) : d * d % 2 ^ 32 = d * d := by
    apply Nat.mod_eq_of_lt
    calc d * d ≤ 2 ^ 15 * 2 ^ 15 := Nat.mul_le_mul hd.le hd.le
      _ < 2 ^ 32 := by norm_num
  have ha := a.isLt
  have hb := b.isLt
  by_cases hle : b.toNat ≤ a.toNat
  · have hd : (a - b).toNat = a.toNat - b.toNat := BitVec.toNat_sub_of_le hle
    rw [BitVec.toNat_mul, hd, hsmall _ (by omega), Nat.cast_mul, Nat.cast_sub hle]
    ring
  · have hneg : (a - b) * (a - b) = (b - a) * (b - a) := by ring
    have hd : (b - a).toNat = b.toNat - a.toNat := BitVec.toNat_sub_of_le (by
      rw [BitVec.le_def]
      omega)
    rw [hneg, BitVec.toNat_mul, hd, hsmall _ (by omega), Nat.cast_mul, Nat.cast_sub (by omega)]
    ring

theorem inCircle_iff {row col : Word} (hr : c.radius.toNat < 2 ^ 15)
    (hcol : |(col.toNat : ℤ) - c.x.toNat| ≤ c.radius.toNat)
    (hrow : |(row.toNat : ℤ) - c.y.toNat| ≤ c.radius.toNat) :
    inCircle c row col = true ↔
      InDisc c.x.toNat c.y.toNat c.radius.toNat row.toNat col.toNat := by
  have hx := square_toNat (a := col) (b := c.x) (by omega)
  have hy := square_toNat (a := row) (b := c.y) (by omega)
  have hbound (d : ℤ) (hd : |d| ≤ c.radius.toNat) : d ^ 2 ≤ (2 ^ 15 - 1) ^ 2 := by
    rw [← sq_abs]
    exact pow_le_pow_left₀ (abs_nonneg d) (by omega) 2
  have hxle := hbound _ hcol
  have hyle := hbound _ hrow
  have hsum : (((col - c.x) * (col - c.x) + (row - c.y) * (row - c.y)).toNat : ℤ)
      = squaredDistance c.x.toNat c.y.toNat row.toNat col.toNat := by
    rw [squaredDistance, ← hx, ← hy, BitVec.toNat_add, Nat.mod_eq_of_lt (by omega), Nat.cast_add]
  have hmax : ((col - c.x) * (col - c.x) + (row - c.y) * (row - c.y)).toNat < 65535 * 65535 := by
    rw [squaredDistance] at hsum
    omega
  rw [inCircle, decide_eq_true_iff, isqrt_lt_iff hmax, InDisc, ← hsum]
  norm_cast
  rw [sq]
  tauto

/-! ## The scanned box -/

/-- The indexes that the scan of a box without wrap stores to. -/
def CoveredPixel (width : Word) (c : Circle) (i : ℕ) : Prop :=
  ∃ row col, InDisc c.x.toNat c.y.toNat c.radius.toNat row col ∧
    (width.toNat * row + col) % 2 ^ 32 = i

/-- The box around the circle has a first and a last word. -/
def BoxFits (c : Circle) : Prop :=
  (c.radius.toNat ≤ c.x.toNat ∧ c.x.toNat + c.radius.toNat < 2 ^ 32) ∧
    c.radius.toNat ≤ c.y.toNat ∧ c.y.toNat + c.radius.toNat < 2 ^ 32

theorem around_fits {a r : Word} (hr : r.toNat < 2 ^ 15) :
    a - r ≤ a + r ↔ r.toNat ≤ a.toNat ∧ a.toNat + r.toNat < 2 ^ 32 := by
  have ha := a.isLt
  rw [BitVec.le_def, BitVec.toNat_sub, BitVec.toNat_add]
  omega

theorem abs_sub_le_of_inDisc {x y r row col : ℕ} (h : InDisc x y r row col) :
    |(col : ℤ) - x| ≤ r ∧ |(row : ℤ) - y| ≤ r := by
  have hle : squaredDistance x y row col ≤ (r : ℤ) ^ 2 := by
    rcases h with h | ⟨rfl, h⟩
    · exact h.le
    · rw [h]
      norm_num
  rw [squaredDistance] at hle
  constructor
  · refine abs_le_of_sq_le_sq ?_ (Int.natCast_nonneg r)
    have := sq_nonneg ((row : ℤ) - y)
    omega
  · refine abs_le_of_sq_le_sq ?_ (Int.natCast_nonneg r)
    have := sq_nonneg ((col : ℤ) - x)
    omega

theorem BoxFits.mem_circleOffsets (h : BoxFits c) (hr : c.radius.toNat < 2 ^ 15) (width : Word) :
    (∃ o ∈ circleOffsets width c, o.toNat = i) ↔ CoveredPixel width c i := by
  obtain ⟨hx, hy⟩ := h
  have hleft : (c.x - c.radius).toNat = c.x.toNat - c.radius.toNat := BitVec.toNat_sub_of_le hx.1
  have hright : (c.x + c.radius).toNat = c.x.toNat + c.radius.toNat :=
    BitVec.toNat_add_of_lt hx.2
  have htop : (c.y - c.radius).toNat = c.y.toNat - c.radius.toNat := BitVec.toNat_sub_of_le hy.1
  have hbot : (c.y + c.radius).toNat = c.y.toNat + c.radius.toNat := BitVec.toNat_add_of_lt hy.2
  simp only [circleOffsets, mem_offsets, BitVec.le_def, hleft, hright, htop, hbot]
  constructor
  · rintro ⟨o, ⟨row, col, hrow, hcol, hin, rfl⟩, rfl⟩
    have hdisc := (inCircle_iff hr (by rw [abs_le]; omega) (by rw [abs_le]; omega)).1 hin
    exact ⟨row.toNat, col.toNat, hdisc, (offset_toNat ..).symm⟩
  · rintro ⟨row, col, hdisc, rfl⟩
    have hnear := abs_sub_le_of_inDisc hdisc
    rw [abs_le, abs_le] at hnear
    have hrow : (BitVec.ofNat 32 row).toNat = row := by
      rw [BitVec.toNat_ofNat, Nat.mod_eq_of_lt (by omega)]
    have hcol : (BitVec.ofNat 32 col).toNat = col := by
      rw [BitVec.toNat_ofNat, Nat.mod_eq_of_lt (by omega)]
    refine ⟨_, ⟨BitVec.ofNat 32 row, BitVec.ofNat 32 col, ?_, ?_, ?_, rfl⟩, ?_⟩
    · omega
    · omega
    · rw [inCircle_iff hr (by rw [hcol, abs_le]; omega) (by rw [hrow, abs_le]; omega), hrow, hcol]
      exact hdisc
    · rw [offset_toNat, hrow, hcol]

/-- A circle that is painted at all has a box without wrap. -/
theorem boxFits_of_mem {o width : Word} (hr : c.radius.toNat < 2 ^ 15)
    (ho : o ∈ circleOffsets width c) : BoxFits c := by
  obtain ⟨row, col, hrow, hcol, -, -⟩ := mem_offsets.1 ho
  exact ⟨(around_fits hr).1 (BitVec.le_trans hcol.1 hcol.2),
    (around_fits hr).1 (BitVec.le_trans hrow.1 hrow.2)⟩

/-! ## Circles with the centre on the screen -/

/-- The indexes of the pixels of the screen at a distance less than the radius. -/
def CirclePixel (fb : FrameBuffer) (c : Circle) (i : ℕ) : Prop :=
  ∃ row col, row < fb.height.toNat ∧ col < fb.width.toNat ∧
    squaredDistance c.x.toNat c.y.toNat row col < c.radius.toNat ^ 2 ∧
    fb.width.toNat * row + col = i

def CentreOnScreen (fb : FrameBuffer) (c : Circle) : Prop :=
  c.x.toNat < fb.width.toNat ∧ c.y.toNat < fb.height.toNat

/-- The circle is a point, or it is larger than its centre, does not cross an edge of the screen,
and the last pixel of it has an index of 32 bits. -/
def Inside (fb : FrameBuffer) (c : Circle) : Prop :=
  c.radius.toNat = 0 ∨
    2 ≤ c.radius.toNat ∧ c.radius.toNat ≤ c.x.toNat ∧ c.radius.toNat ≤ c.y.toNat ∧
      c.x.toNat + c.radius.toNat ≤ fb.width.toNat ∧
      c.y.toNat + c.radius.toNat ≤ fb.height.toNat ∧
      fb.width.toNat * (c.y.toNat + c.radius.toNat - 1)
        + (c.x.toNat + Nat.sqrt (2 * c.radius.toNat - 2)) < 2 ^ 32

section Disc

variable {x y r row col W : ℕ}

theorem abs_sub_lt_of_distance (h : squaredDistance x y row col < (r : ℤ) ^ 2) :
    |(col : ℤ) - x| < r ∧ |(row : ℤ) - y| < r := by
  rw [squaredDistance] at h
  constructor
  · refine abs_lt_of_sq_lt_sq ?_ (Int.natCast_nonneg r)
    have := sq_nonneg ((row : ℤ) - y)
    omega
  · refine abs_lt_of_sq_lt_sq ?_ (Int.natCast_nonneg r)
    have := sq_nonneg ((col : ℤ) - x)
    omega

theorem distance_row (h : |(col : ℤ) - x| < r) : squaredDistance x y y col < (r : ℤ) ^ 2 := by
  rw [squaredDistance, sub_self, zero_pow two_ne_zero, add_zero]
  exact sq_lt_sq' (abs_lt.1 h).1 (abs_lt.1 h).2

theorem distance_column (h : |(row : ℤ) - y| < r) : squaredDistance x y row x < (r : ℤ) ^ 2 := by
  rw [squaredDistance, sub_self, zero_pow two_ne_zero, zero_add]
  exact sq_lt_sq' (abs_lt.1 h).1 (abs_lt.1 h).2

/-- The last pixel of a circle: in its last row, as far to the right as the root allows. -/
theorem last_pixel (hr : 2 ≤ r) (hx : x + r ≤ W) :
    (∀ row col, squaredDistance x y row col < (r : ℤ) ^ 2 → W * row + col < 2 ^ 32) ↔
      W * (y + r - 1) + (x + Nat.sqrt (2 * r - 2)) < 2 ^ 32 := by
  have hroot := Nat.sqrt_le' (2 * r - 2)
  have hroot' := Nat.lt_succ_sqrt' (2 * r - 2)
  constructor
  · intro hall
    apply hall
    have hsq : ((Nat.sqrt (2 * r - 2) : ℕ) : ℤ) ^ 2 ≤ 2 * r - 2 := by
      have : ((Nat.sqrt (2 * r - 2) ^ 2 : ℕ) : ℤ) ≤ ((2 * r - 2 : ℕ) : ℤ) := by exact_mod_cast hroot
      push_cast [Nat.cast_sub (show 2 ≤ 2 * r by omega)] at this
      exact this
    have hrow : ((y + r - 1 : ℕ) : ℤ) - y = r - 1 := by omega
    have hcol : ((x + Nat.sqrt (2 * r - 2) : ℕ) : ℤ) - x = Nat.sqrt (2 * r - 2) := by omega
    rw [squaredDistance, hrow, hcol]
    linarith [sub_sq (r : ℤ) 1]
  · intro hlast row col hdist
    obtain ⟨hcol, hrow⟩ := abs_sub_lt_of_distance hdist
    rw [abs_lt] at hcol hrow
    by_cases hlastrow : row = y + r - 1
    · have hcolsq : ((col : ℤ) - x) ^ 2 < 2 * r - 1 := by
        have hrow' : (row : ℤ) - y = r - 1 := by omega
        rw [squaredDistance, hrow'] at hdist
        linarith [sub_sq (r : ℤ) 1]
      have hle : (col : ℤ) - x < Nat.sqrt (2 * r - 2) + 1 := by
        refine lt_of_pow_lt_pow_left₀ 2 (by omega) (lt_of_lt_of_le hcolsq ?_)
        have : ((2 * r - 2 : ℕ) : ℤ) < (((Nat.sqrt (2 * r - 2)).succ ^ 2 : ℕ) : ℤ) := by
          exact_mod_cast hroot'
        push_cast [Nat.cast_sub (show 2 ≤ 2 * r by omega)] at this
        omega
      rw [hlastrow]
      omega
    · have hmul : W * (row + 1) ≤ W * (y + r - 1) := Nat.mul_le_mul_left W (by omega)
      rw [Nat.mul_succ] at hmul
      omega

end Disc

/-- The pixels of a circle that keeps its distance from the left and the upper edge lie behind
the first row and column. -/
theorem CirclePixel.gt (hx : c.radius.toNat ≤ c.x.toNat) (hy : c.radius.toNat ≤ c.y.toNat)
    (h : CirclePixel fb c i) : ∃ row col, 1 ≤ row ∧ row < fb.height.toNat ∧ 1 ≤ col ∧
      col < fb.width.toNat ∧ fb.width.toNat * row + col = i ∧ fb.width.toNat ≤ i := by
  obtain ⟨row, col, hrow, hcol, hdist, rfl⟩ := h
  have hnear := abs_sub_lt_of_distance hdist
  rw [abs_lt, abs_lt] at hnear
  have hmul : fb.width.toNat * 1 ≤ fb.width.toNat * row := Nat.mul_le_mul_left _ (by omega)
  exact ⟨row, col, by omega, hrow, by omega, hcol, rfl, by omega⟩

/-- A scan that covers the circle and nothing else covers one that is inside the screen. -/
theorem inside_of_covered (hcentre : CentreOnScreen fb c) (hfits : BoxFits c)
    (hpos : c.radius.toNat ≠ 0)
    (hS : ∀ i, CirclePixel fb c i ↔ CoveredPixel fb.width c i) : Inside fb c := by
  obtain ⟨hxW, hyH⟩ := hcentre
  obtain ⟨⟨hrx, -⟩, hry, -⟩ := hfits
  have hword (i : ℕ) (hi : CirclePixel fb c i) : i < 2 ^ 32 := by
    obtain ⟨row, col, -, rfl⟩ := (hS i).1 hi
    exact Nat.mod_lt _ (by norm_num)
  have hcovered (row col : ℕ) (hd : squaredDistance c.x.toNat c.y.toNat row col
      < (c.radius.toNat : ℤ) ^ 2) :
      CirclePixel fb c ((fb.width.toNat * row + col) % 2 ^ 32) :=
    (hS _).2 ⟨row, col, Or.inl hd, rfl⟩
  have hmiddle : squaredDistance c.x.toNat c.y.toNat c.y.toNat c.x.toNat
      < (c.radius.toNat : ℤ) ^ 2 := distance_row (by rw [sub_self, abs_zero]; omega)
  have hcentre := hword _ ⟨c.y.toNat, c.x.toNat, hyH, hxW, hmiddle, rfl⟩
  -- a circle of radius 1 spills to its neighbours
  have htwo : 2 ≤ c.radius.toNat := by
    by_contra hlt
    have hone : c.radius.toNat = 1 := by omega
    have hspill : CirclePixel fb c ((fb.width.toNat * c.y.toNat + (c.x.toNat + 1)) % 2 ^ 32) :=
      (hS _).2 ⟨c.y.toNat, c.x.toNat + 1, Or.inr ⟨hone, by rw [squaredDistance]; norm_num⟩, rfl⟩
    obtain ⟨row, col, -, -, hdist, heq⟩ := hspill
    have hnear := abs_sub_lt_of_distance hdist
    rw [abs_lt, abs_lt, hone] at hnear
    obtain ⟨rfl, rfl⟩ : row = c.y.toNat ∧ col = c.x.toNat := by omega
    omega
  -- the column behind the right edge is the first one of the next row
  have hright : c.x.toNat + c.radius.toNat ≤ fb.width.toNat := by
    by_contra hcross
    obtain ⟨row, col, hrow, -, hcol, hcol', heq, hge⟩ :=
      (hcovered c.y.toNat fb.width.toNat (distance_row (by rw [abs_lt]; omega))).gt hrx hry
    have hdvd : fb.width.toNat * row + col = fb.width.toNat * (c.y.toNat + 1) := by
      rw [Nat.mul_succ]
      omega
    have hmod := congrArg (· % fb.width.toNat) hdvd
    simp only [Nat.mul_add_mod, Nat.mod_eq_of_lt hcol', Nat.mul_mod_right] at hmod
    omega
  -- the row behind the lower edge is not on the screen
  have hbelow : c.y.toNat + c.radius.toNat ≤ fb.height.toNat := by
    by_contra hcross
    obtain ⟨row, col, -, hrow', -, hcol', heq, hge⟩ :=
      (hcovered fb.height.toNat c.x.toNat (distance_column (by rw [abs_lt]; omega))).gt hrx hry
    have hlt := index_lt hrow' hcol'
    have hlast := hword _ ⟨fb.height.toNat - 1, c.x.toNat, by omega, hxW,
      distance_column (by rw [abs_lt]; omega), rfl⟩
    have hsucc : fb.width.toNat * (fb.height.toNat - 1) + fb.width.toNat
        = fb.width.toNat * fb.height.toNat := by
      rw [← Nat.mul_succ, Nat.succ_eq_add_one, Nat.sub_add_cancel (by omega)]
    omega
  refine Or.inr ⟨htwo, hrx, hry, hright, hbelow, (last_pixel htwo hright).1 ?_⟩
  intro row col hdist
  have hnear := abs_sub_lt_of_distance hdist
  rw [abs_lt, abs_lt] at hnear
  exact hword _ ⟨row, col, by omega, by omega, hdist, rfl⟩

theorem Inside.covered (h : Inside fb c) (hpos : c.radius.toNat ≠ 0) :
    CirclePixel fb c i ↔ CoveredPixel fb.width c i := by
  obtain ⟨htwo, hrx, hry, hright, hbelow, hlast⟩ := h.resolve_left hpos
  have hword := (last_pixel (y := c.y.toNat) htwo hright).2 hlast
  constructor
  · rintro ⟨row, col, -, -, hdist, rfl⟩
    exact ⟨row, col, Or.inl hdist, Nat.mod_eq_of_lt (hword row col hdist)⟩
  · rintro ⟨row, col, hdisc, rfl⟩
    have hdist := hdisc.resolve_right fun h => by omega
    have hnear := abs_sub_lt_of_distance hdist
    rw [abs_lt, abs_lt] at hnear
    exact ⟨row, col, by omega, by omega, hdist, (Nat.mod_eq_of_lt (hword row col hdist)).symm⟩

theorem CirclePixel.lt_size (h : CirclePixel fb c i) : i < fb.size := by
  obtain ⟨row, col, hrow, hcol, -, rfl⟩ := h
  exact index_lt hrow hcol

/-- The scan of a point that paints nothing. -/
theorem circleOffsets_of_zero (hzero : c.radius.toNat = 0) (width : Word) :
    ¬ ∃ o ∈ circleOffsets width c, o.toNat = i := by
  rintro ⟨o, ho, -⟩
  obtain ⟨row, col, -, -, hin, -⟩ := mem_offsets.1 ho
  have hlt : isqrt _ < c.radius := of_decide_eq_true hin
  rw [BitVec.lt_def, hzero] at hlt
  exact absurd hlt (Nat.not_lt_zero _)

/-- Neither loop of such a scan runs up to the greatest word. -/
theorem Inside.ends (h : Inside fb c) (hcentre : CentreOnScreen fb c) :
    c.x.toNat + c.radius.toNat < 2 ^ 32 - 1 ∧ c.y.toNat + c.radius.toNat < 2 ^ 32 - 1 := by
  have hW := fb.width.isLt
  have hH := fb.height.isLt
  obtain ⟨hxW, hyH⟩ := hcentre
  rcases h with hzero | ⟨htwo, hrx, hry, hright, hbelow, hlast⟩
  · omega
  · have hrows : fb.width.toNat * 3 ≤ fb.width.toNat * (c.y.toNat + c.radius.toNat - 1) :=
      Nat.mul_le_mul_left _ (by omega)
    have hcols : 4 * (c.y.toNat + c.radius.toNat - 1)
        ≤ fb.width.toNat * (c.y.toNat + c.radius.toNat - 1) :=
      Nat.mul_le_mul_right _ (by omega)
    omega

theorem fillCircle_fills_iff (hcentre : CentreOnScreen fb c) (hr : c.radius.toNat < 2 ^ 15) :
    Fills fb color (CirclePixel fb c) (fun fuel => fillCircle fuel fb c color) ↔ Inside fb c := by
  have hW := fb.width.isLt
  have hH := fb.height.isLt
  obtain ⟨hxW, hyH⟩ := id hcentre
  constructor
  · rintro ⟨fb', hcall, hp, -⟩
    obtain ⟨-, -, rfl⟩ := fillCircle_leaves.1 hcall
    have hS := painted_paint_iff.1 hp
    by_cases hpos : c.radius.toNat = 0
    · exact Or.inl hpos
    · obtain ⟨o, ho, -⟩ := (hS _).1 ⟨c.y.toNat, c.x.toNat, hyH, hxW,
        distance_row (by rw [sub_self, abs_zero]; omega), rfl⟩
      have hfits := boxFits_of_mem hr ho
      refine inside_of_covered hcentre hfits hpos fun i => ?_
      rw [hS, hfits.mem_circleOffsets hr]
  · intro hin
    refine ⟨_, fillCircle_leaves.2 ⟨?_, Or.inr ?_, rfl⟩, painted_paint_iff.2 fun i => ?_,
      fun i => CirclePixel.lt_size⟩
    · rw [ne_allOnes_iff, BitVec.toNat_add]
      have := hin.ends hcentre
      omega
    · rw [ne_allOnes_iff, BitVec.toNat_add]
      have := hin.ends hcentre
      omega
    · by_cases hpos : c.radius.toNat = 0
      · refine iff_of_false ?_ (circleOffsets_of_zero hpos fb.width)
        rintro ⟨row, col, -, -, hdist, -⟩
        rw [hpos, squaredDistance] at hdist
        have h₁ := sq_nonneg ((col : ℤ) - c.x.toNat)
        have h₂ := sq_nonneg ((row : ℤ) - c.y.toNat)
        norm_num at hdist
        omega
      · obtain ⟨-, hrx, hry, hright, hbelow, -⟩ := hin.resolve_left hpos
        have hfits : BoxFits c := ⟨⟨hrx, by omega⟩, hry, by omega⟩
        rw [hin.covered hpos, hfits.mem_circleOffsets hr]

/-- Which circles with the centre on the screen are painted exactly. -/
theorem circle_filled_iff (fb : FrameBuffer) (c : Circle) (color : Pixel)
    (hcentre : CentreOnScreen fb c) (hr : c.radius.toNat < 2 ^ 15) :
    Fills fb color (CirclePixel fb c) (fun fuel => fillCircle fuel fb c color) ↔ Inside fb c :=
  fillCircle_fills_iff hcentre hr

theorem circle_filled_iff_middle :
    Fills (blank 8 8) ⟨1, 0, 0, 0⟩ (CirclePixel (blank 8 8) ⟨4, 4, 2⟩)
      (fun fuel => fillCircle fuel (blank 8 8) ⟨4, 4, 2⟩ ⟨1, 0, 0, 0⟩) := by
  refine (circle_filled_iff (blank 8 8) ⟨4, 4, 2⟩ ⟨1, 0, 0, 0⟩ ⟨by decide, by decide⟩
    (by decide)).2 (Or.inr ⟨by decide, by decide, by decide, by decide, by decide, ?_⟩)
  change 8 * 5 + (4 + Nat.sqrt 2) < 2 ^ 32
  have := Nat.sqrt_le_self 2
  omega

/-- A circle of radius 1, whose only pixel is its centre, and one that crosses the left edge. -/
theorem small_circle_spills : CentreOnScreen (blank 8 8) ⟨4, 4, 1⟩ ∧
    CentreOnScreen (blank 8 8) ⟨1, 4, 2⟩ ∧
    ¬ Fills (blank 8 8) ⟨1, 0, 0, 0⟩ (CirclePixel (blank 8 8) ⟨4, 4, 1⟩)
        (fun fuel => fillCircle fuel (blank 8 8) ⟨4, 4, 1⟩ ⟨1, 0, 0, 0⟩) ∧
    ¬ Fills (blank 8 8) ⟨1, 0, 0, 0⟩ (CirclePixel (blank 8 8) ⟨1, 4, 2⟩)
        (fun fuel => fillCircle fuel (blank 8 8) ⟨1, 4, 2⟩ ⟨1, 0, 0, 0⟩) := by
  have h : CentreOnScreen (blank 8 8) ⟨4, 4, 1⟩ := ⟨by decide, by decide⟩
  have h' : CentreOnScreen (blank 8 8) ⟨1, 4, 2⟩ := ⟨by decide, by decide⟩
  refine ⟨h, h', ?_, ?_⟩
  · rw [fillCircle_fills_iff h (by decide)]
    rintro (h | h)
    · exact absurd h (by decide)
    · exact absurd h.1 (by decide)
  · rw [fillCircle_fills_iff h' (by decide)]
    rintro (h | h)
    · exact absurd h (by decide)
    · exact absurd h.2.1 (by decide)

/-! ## The rectangle that is flushed -/

/-- Along one axis: the half before the centre, then the half behind it. -/
def circleToRange (src_x radius fb_width : Word) : Word × Word :=
  let (r_x, r_width) : Word × Word :=
    if src_x < radius then (0, 0 + src_x) else (src_x - radius, 0 + radius)
  if src_x + radius > fb_width then (r_x, fb_width - r_x) else (r_x, r_width + radius)

def circleToRectangle (fb : FrameBuffer) (src : Circle) : Rectangle :=
  let (r_x, r_width) := circleToRange src.x src.radius fb.width
  let (r_y, r_height) := circleToRange src.y src.radius fb.height
  ⟨r_x, r_y, r_width, r_height⟩

/-- The device gets the pixel when the rectangle is flushed. -/
def Shown (r : Rectangle) (row col : ℕ) : Prop :=
  (r.y.toNat ≤ row ∧ row < r.y.toNat + r.height.toNat) ∧
    r.x.toNat ≤ col ∧ col < r.x.toNat + r.width.toNat

/-- The range ends on the screen and has every coordinate of it that is less than the radius away
from the centre. -/
theorem circleToRange_spec {x r width : Word} (hx : x.toNat < width.toNat)
    (hfit : x.toNat + r.toNat < 2 ^ 32) :
    (circleToRange x r width).1.toNat + (circleToRange x r width).2.toNat ≤ width.toNat ∧
      ∀ col : ℕ, col < width.toNat → |(col : ℤ) - x.toNat| < r.toNat →
        (circleToRange x r width).1.toNat ≤ col ∧
          col < (circleToRange x r width).1.toNat + (circleToRange x r width).2.toNat := by
  have hwidth := width.isLt
  have hsum : (x + r).toNat = x.toNat + r.toNat := BitVec.toNat_add_of_lt hfit
  have hzero : (0 : Word).toNat = 0 := rfl
  simp only [circleToRange, gt_iff_lt, BitVec.lt_def, hsum, zero_add]
  by_cases hleft : x.toNat < r.toNat
  · simp only [if_pos hleft]
    by_cases hright : width.toNat < x.toNat + r.toNat
    · simp only [if_pos hright, sub_zero, hzero]
      exact ⟨by omega, fun col hcol _ => by omega⟩
    · simp only [if_neg hright, hsum, hzero]
      refine ⟨by omega, fun col _ hnear => ?_⟩
      rw [abs_lt] at hnear
      omega
  · have hstart : (x - r).toNat = x.toNat - r.toNat :=
      BitVec.toNat_sub_of_le (BitVec.le_def.2 (not_lt.1 hleft))
    simp only [if_neg hleft]
    by_cases hright : width.toNat < x.toNat + r.toNat
    · have hlen : (width - (x - r)).toNat = width.toNat - (x.toNat - r.toNat) := by
        rw [BitVec.toNat_sub_of_le, hstart]
        rw [BitVec.le_def, hstart]
        omega
      simp only [if_pos hright, hlen, hstart]
      refine ⟨by omega, fun col _ hnear => ?_⟩
      rw [abs_lt] at hnear
      omega
    · have hlen : (r + r).toNat = r.toNat + r.toNat := BitVec.toNat_add_of_lt (by omega)
      simp only [if_neg hright, hlen, hstart]
      refine ⟨by omega, fun col _ hnear => ?_⟩
      rw [abs_lt] at hnear
      omega

/-- Flushing the rectangle of a circle shows the circle as far as it is on the screen. -/
theorem circle_shown (fb : FrameBuffer) (c : Circle) (hcentre : CentreOnScreen fb c)
    (hx : c.x.toNat + c.radius.toNat < 2 ^ 32) (hy : c.y.toNat + c.radius.toNat < 2 ^ 32) :
    OnScreen fb (circleToRectangle fb c) ∧
      ∀ row col, row < fb.height.toNat → col < fb.width.toNat →
        squaredDistance c.x.toNat c.y.toNat row col < c.radius.toNat ^ 2 →
        Shown (circleToRectangle fb c) row col := by
  obtain ⟨hcols, hcolsAll⟩ := circleToRange_spec hcentre.1 hx
  obtain ⟨hrows, hrowsAll⟩ := circleToRange_spec hcentre.2 hy
  refine ⟨⟨hcols, hrows⟩, fun row col hrow hcol hdist => ?_⟩
  obtain ⟨hnearcol, hnearrow⟩ := abs_sub_lt_of_distance hdist
  exact ⟨hrowsAll row hrow hnearrow, hcolsAll col hcol hnearcol⟩

/-- A circle that crosses the left and the lower edge. -/
theorem circle_shown_corner : OnScreen (blank 8 8) (circleToRectangle (blank 8 8) ⟨1, 6, 3⟩) ∧
    Shown (circleToRectangle (blank 8 8) ⟨1, 6, 3⟩) 7 0 := by
  obtain ⟨hscreen, hshown⟩ := circle_shown (blank 8 8) ⟨1, 6, 3⟩ ⟨by decide, by decide⟩
    (by decide) (by decide)
  exact ⟨hscreen, hshown 7 0 (by decide) (by decide) (by decide)⟩

end Gpu
