import DucreuOS.Rectangles

/-! # The table of frame buffer offsets

`gpu_get_fb_offset_into_rectangle`: the pixels that one pixel of an image is scaled up to, in a
table from `kmalloc` that ends with a sentinel. -/
namespace Gpu

/-- `gpu_offsets`: how many entries `kmalloc` has given, what they hold, and the history of the
indexes stored to. An index is an `int`. -/
structure OffsetTable where
  length : ℤ
  entries : ℤ → BitVec 64
  written : List ℤ

namespace OffsetTable

def set (t : OffsetTable) (k : ℤ) (gpu_offset : BitVec 64) : OffsetTable :=
  { t with entries := Function.update t.entries k gpu_offset, written := t.written ++ [k] }

end OffsetTable

section Source

variable (fb : FrameBuffer) (row max_row column max_column : Word) (r : Rectangle)

/-- The body of the loops: products of `uint32_t` in a sum of `uint64_t`. -/
def gpuOffset (i j : Word) : BitVec 64 :=
  let gpu_offset := (r.y * fb.width + r.x).setWidth 64
  let gpu_offset := gpu_offset + (r.height * row / max_row * fb.width).setWidth 64
  let gpu_offset := gpu_offset + (r.width * column / max_column).setWidth 64
  let gpu_offset := gpu_offset + i.signExtend 64
  let gpu_offset := gpu_offset + (j * fb.width).setWidth 64
  if gpu_offset ≥ (fb.width * fb.height).setWidth 64 then (fb.width * fb.height - 1).setWidth 64
  else gpu_offset

def horizontalNumPixels : Word := r.width / max_row + 1

def verticalNumPixels : Word := r.height / max_column + 1

/-- How often a loop `for(i = 0; i < bound; i++)` over an `int` runs, and where it leaves `i`. -/
def rounds (bound : Word) : ℕ := bound.toInt.toNat

/-- The stores of the two loops. -/
def loopStores : List (ℤ × BitVec 64) :=
  let horizontal_num_pixels := horizontalNumPixels max_row r
  (List.range (rounds horizontal_num_pixels)).flatMap fun i =>
    (List.range (rounds (verticalNumPixels max_column r))).map fun j =>
      ((BitVec.ofNat 32 i + BitVec.ofNat 32 j * horizontal_num_pixels).toInt,
        gpuOffset fb row max_row column max_column r (BitVec.ofNat 32 i) (BitVec.ofNat 32 j))

/-- `i + j*horizontal_num_pixels` behind the loops; the inner one sets `j`, if it is reached. -/
def sentinelIndex (j : Word) : Word :=
  let horizontal_num_pixels := horizontalNumPixels max_row r
  let i := BitVec.ofNat 32 (rounds horizontal_num_pixels)
  let j := if rounds horizontal_num_pixels = 0 then j
    else BitVec.ofNat 32 (rounds (verticalNumPixels max_column r))
  i + j * horizontal_num_pixels

/-- With `heap` in the block from `kmalloc` and `j` where the variable lies before it is set. -/
def fbOffsetIntoRectangle (heap : ℤ → BitVec 64) (j : Word) : OffsetTable :=
  let len_pixels := horizontalNumPixels max_row r * verticalNumPixels max_column r
  let gpu_offsets : OffsetTable := ⟨(len_pixels + 1).toInt, heap, []⟩
  let gpu_offsets := (loopStores fb row max_row column max_column r).foldl
    (fun t e => t.set e.1 e.2) gpu_offsets
  gpu_offsets.set (sentinelIndex max_row max_column r j).toInt (BitVec.allOnes 64)

end Source

/-! ## What the table is to be -/

/-- `n` offsets of pixels and the sentinel behind them, stored inside the table. -/
structure Complete (fb : FrameBuffer) (n : ℤ) (t : OffsetTable) : Prop where
  inside : ∀ k ∈ t.written, 0 ≤ k ∧ k < t.length
  offsets : ∀ k, 0 ≤ k → k < n → k ∈ t.written ∧ (t.entries k).toNat < fb.size
  sentinel : n ∈ t.written ∧ t.entries n = BitVec.allOnes 64

variable {fb : FrameBuffer} {row max_row column max_column i j : Word} {r : Rectangle}
  {t : OffsetTable} {k : ℤ} {l : List (ℤ × BitVec 64)} {heap : ℤ → BitVec 64}

theorem set_entries (x : BitVec 64) (k' : ℤ) :
    (t.set k x).entries k' = if k' = k then x else t.entries k' := Function.update_apply ..

@[simp] theorem set_length (x : BitVec 64) : (t.set k x).length = t.length := rfl

theorem foldl_set_length :
    (l.foldl (fun t e => t.set e.1 e.2) t).length = t.length := by
  induction l generalizing t with
  | nil => rfl
  | cons e l ih => exact ih

theorem foldl_set_written :
    (l.foldl (fun t e => t.set e.1 e.2) t).written = t.written ++ l.map Prod.fst := by
  induction l generalizing t with
  | nil => exact (List.append_nil t.written).symm
  | cons e l ih =>
    rw [List.foldl_cons, ih]
    exact List.append_assoc ..

theorem foldl_set_entries :
    (∃ x, (k, x) ∈ l ∧ (l.foldl (fun t e => t.set e.1 e.2) t).entries k = x) ∨
      k ∉ l.map Prod.fst ∧ (l.foldl (fun t e => t.set e.1 e.2) t).entries k = t.entries k := by
  induction l generalizing t with
  | nil => exact Or.inr ⟨List.not_mem_nil, rfl⟩
  | cons e l ih =>
    rcases ih (t := t.set e.1 e.2) with ⟨x, hx, hentry⟩ | ⟨hk, hentry⟩
    · exact Or.inl ⟨x, List.mem_cons_of_mem e hx, hentry⟩
    · rw [set_entries] at hentry
      by_cases hke : k = e.1
      · rw [if_pos hke] at hentry
        exact Or.inl ⟨e.2, hke ▸ List.mem_cons_self, hentry⟩
      · rw [if_neg hke] at hentry
        refine Or.inr ⟨?_, hentry⟩
        rw [List.map_cons, List.mem_cons]
        exact not_or.2 ⟨hke, hk⟩

/-- Every offset is clamped to the pixels, also where the number of them has more than 32 bits. -/
theorem gpuOffset_lt (hpos : 0 < fb.size) :
    (gpuOffset fb row max_row column max_column r i j).toNat < fb.size := by
  have hproduct : (fb.width * fb.height).toNat = fb.size % 2 ^ 32 := BitVec.toNat_mul ..
  have hle : fb.size % 2 ^ 32 ≤ fb.size := Nat.mod_le ..
  rw [gpuOffset]
  split_ifs with hge
  · rw [BitVec.toNat_setWidth_of_le (by norm_num), BitVec.toNat_sub, hproduct]
    change (2 ^ 32 - 1 + fb.size % 2 ^ 32) % 2 ^ 32 < fb.size
    omega
  · rw [ge_iff_le, BitVec.not_le, BitVec.lt_def, BitVec.toNat_setWidth_of_le (by norm_num),
      hproduct] at hge
    exact lt_of_lt_of_le hge hle

theorem mem_loopStores {x : BitVec 64}
    (h : (k, x) ∈ loopStores fb row max_row column max_column r) (hpos : 0 < fb.size) :
    x.toNat < fb.size := by
  simp only [loopStores, List.mem_flatMap, List.mem_map, Prod.mk.injEq] at h
  obtain ⟨i, -, j, -, -, rfl⟩ := h
  exact gpuOffset_lt hpos

theorem size_lt (fb : FrameBuffer) : fb.size < 2 ^ 64 - 1 := by
  have hW := fb.width.isLt
  have hH := fb.height.isLt
  calc fb.size ≤ (2 ^ 32 - 1) * (2 ^ 32 - 1) := Nat.mul_le_mul (by omega) (by omega)
    _ < 2 ^ 64 - 1 := by norm_num

theorem rounds_self {a : Word} (ha : 0 ≤ a.toInt) : BitVec.ofNat 32 (rounds a) = a := by
  rw [rounds, ← BitVec.ofInt_natCast, Int.toNat_of_nonneg ha, BitVec.ofInt_toInt]

/-- The sentinel is at its index and nowhere else. -/
theorem eq_sentinelIndex (hpos : 0 < fb.size)
    (hk : k ∈ (fbOffsetIntoRectangle fb row max_row column max_column r heap j).written)
    (hvalue : (fbOffsetIntoRectangle fb row max_row column max_column r heap j).entries k
      = BitVec.allOnes 64) : k = (sentinelIndex max_row max_column r j).toInt := by
  by_contra hne
  rw [fbOffsetIntoRectangle, set_entries, if_neg hne] at hvalue
  rw [fbOffsetIntoRectangle, OffsetTable.set, foldl_set_written, List.mem_append,
    List.mem_singleton, List.nil_append] at hk
  have hk := hk.resolve_right hne
  rcases foldl_set_entries (k := k) (l := loopStores fb row max_row column max_column r)
    (t := ⟨_, heap, []⟩) with ⟨x, hx, hentry⟩ | ⟨hnot, -⟩
  · have hlt := mem_loopStores hx hpos
    rw [← hentry, hvalue, BitVec.toNat_allOnes] at hlt
    have := size_lt fb
    omega
  · exact hnot hk

theorem sentinelIndex_stored : (sentinelIndex max_row max_column r j).toInt
    ∈ (fbOffsetIntoRectangle fb row max_row column max_column r heap j).written :=
  List.mem_append_right _ List.mem_cons_self

/-- The table is complete, for every content of the heap and of `j`, only when it has no
column. -/
theorem complete_iff (hpos : 0 < fb.size) :
    (∀ heap j, Complete fb
        ((horizontalNumPixels max_row r).toInt * (verticalNumPixels max_column r).toInt)
        (fbOffsetIntoRectangle fb row max_row column max_column r heap j)) ↔
      horizontalNumPixels max_row r = 0 := by
  constructor
  · intro hall
    obtain ⟨hinside, -, hmem, hvalue⟩ := hall (fun _ => 0) 1
    have hindex := eq_sentinelIndex hpos hmem hvalue
    have hfirst := (hinside _ sentinelIndex_stored).1
    rw [sentinelIndex] at hindex hfirst
    generalize horizontalNumPixels max_row r = h at hindex hfirst ⊢
    generalize verticalNumPixels max_column r = v at hindex
    rcases lt_trichotomy h.toInt 0 with hneg | hzero | hh
    · -- no loop runs, and `j` takes the sentinel before the table
      have hrounds : rounds h = 0 := Int.toNat_of_nonpos hneg.le
      have hself : BitVec.ofNat 32 0 + 1 * h = h := by
        change (0 : Word) + 1 * h = h
        rw [one_mul, zero_add]
      simp only [hrounds, if_true, hself] at hfirst
      omega
    · exact BitVec.eq_of_toInt_eq hzero
    · have hrounds : rounds h ≠ 0 := by
        rw [rounds]
        omega
      simp only [if_neg hrounds, rounds_self hh.le] at hindex
      by_cases hv : 0 ≤ v.toInt
      · -- one row too far
        rw [rounds_self hv] at hindex
        have hword : h * v = h + v * h := by
          rw [← BitVec.ofInt_toInt (x := h + v * h), ← hindex, BitVec.ofInt_mul,
            BitVec.ofInt_toInt, BitVec.ofInt_toInt]
        rw [mul_comm v h] at hword
        exact right_eq_add.1 hword
      · have hzero : rounds v = 0 := Int.toNat_of_nonpos (not_le.1 hv).le
        have hprod : h.toInt * v.toInt < 0 := mul_neg_of_pos_of_neg hh (not_le.1 hv)
        have hself : h + BitVec.ofNat 32 0 * h = h := by
          change h + (0 : Word) * h = h
          rw [zero_mul, add_zero]
        rw [hzero, hself] at hindex
        omega
  · intro hzero heap j
    have hindex : sentinelIndex max_row max_column r j = 0 := by
      rw [sentinelIndex, hzero]
      change (0 : Word) + j * 0 = 0
      rw [mul_zero, add_zero]
    have hstores : loopStores fb row max_row column max_column r = [] := by
      rw [loopStores, hzero]
      rfl
    have htable : fbOffsetIntoRectangle fb row max_row column max_column r heap j
        = (⟨1, heap, []⟩ : OffsetTable).set 0 (BitVec.allOnes 64) := by
      rw [fbOffsetIntoRectangle, hindex, hstores, hzero, zero_mul]
      rfl
    rw [htable, hzero]
    change Complete fb (0 * _) _
    rw [zero_mul]
    refine ⟨fun k hk => ?_, fun k hk hk' => ?_, List.mem_cons_self, ?_⟩
    · obtain rfl : k = 0 := List.mem_singleton.1 hk
      exact ⟨le_rfl, one_pos⟩
    · omega
    · rw [set_entries, if_pos rfl]

/-- An index inside the range of `int`. -/
theorem index_toInt {a b : ℕ} {h : Word} (hh : 0 ≤ h.toInt) (hlt : a + b * h.toInt < 2 ^ 31) :
    (BitVec.ofNat 32 a + BitVec.ofNat 32 b * h).toInt = a + b * h.toInt := by
  have hword : BitVec.ofNat 32 a + BitVec.ofNat 32 b * h = BitVec.ofInt 32 (a + b * h.toInt) := by
    rw [BitVec.ofInt_add, BitVec.ofInt_mul, BitVec.ofInt_toInt, BitVec.ofInt_natCast,
      BitVec.ofInt_natCast]
  have hnonneg : 0 ≤ (b : ℤ) * h.toInt := mul_nonneg (Int.natCast_nonneg b) hh
  rw [hword, BitVec.toInt_ofInt_eq_self (by norm_num)]
  · omega
  · norm_num
    omega

section InRange

variable {n m : ℤ} (hn : (horizontalNumPixels max_row r).toInt = n)
  (hm : (verticalNumPixels max_column r).toInt = m) (hn1 : 1 ≤ n) (hm1 : 1 ≤ m)
  (hlt : n * (m + 1) < 2 ^ 31)

include hn hm hn1 hlt in
/-- The stores of the loops are to the first `n * m` entries. -/
theorem mem_stored (fb : FrameBuffer) (row column : Word) : k ∈ (loopStores fb row max_row column max_column r).map Prod.fst ↔
    0 ≤ k ∧ k < n * m := by
  have hexpand : n * (m + 1) = n * m + n := mul_add_one n m
  have hbound (a b : ℕ) (ha : (a : ℤ) < n) (hb : (b : ℤ) < m) : a + b * n < n * m := by
    have : (b : ℤ) * n ≤ (m - 1) * n := mul_le_mul_of_nonneg_right (by omega) (by omega)
    linarith
  have hindex (a b : ℕ) (ha : (a : ℤ) < n) (hb : (b : ℤ) < m) :
      (BitVec.ofNat 32 a + BitVec.ofNat 32 b * horizontalNumPixels max_row r).toInt
        = a + b * n := by
    have := hbound a b ha hb
    rw [index_toInt (by omega) (by rw [hn]; omega), hn]
  simp only [loopStores, List.mem_map, List.mem_flatMap, List.mem_range, Prod.exists,
    Prod.mk.injEq, exists_and_right, exists_eq_right, rounds, hn, hm, Int.lt_toNat]
  constructor
  · rintro ⟨x, a, ha, b, hb, rfl, -⟩
    rw [hindex a b ha hb]
    have hnonneg : 0 ≤ (b : ℤ) * n := mul_nonneg (Int.natCast_nonneg b) (by omega)
    exact ⟨by omega, hbound a b ha hb⟩
  · rintro ⟨hk, hkm⟩
    have hcol : k % n < n := Int.emod_lt_of_pos k (by omega)
    have hrow : k / n < m := Int.ediv_lt_of_lt_mul (by omega) (by rwa [mul_comm])
    have hcol0 : 0 ≤ k % n := Int.emod_nonneg k (by omega)
    have hrow0 : 0 ≤ k / n := Int.ediv_nonneg hk (by omega)
    have hk' : ((k % n).toNat : ℤ) + (k / n).toNat * n = k := by
      rw [Int.toNat_of_nonneg hcol0, Int.toNat_of_nonneg hrow0, mul_comm]
      exact Int.emod_add_mul_ediv k n
    refine ⟨_, (k % n).toNat, by omega, (k / n).toNat, by omega, ?_, rfl⟩
    rw [hindex _ _ (by omega) (by omega), hk']

include hn hm hn1 hm1 hlt in
/-- All offsets are stored, nothing is stored behind them, and the sentinel lies outside the
table. -/
theorem offsets_stored (hpos : 0 < fb.size) :
    (∀ k, 0 ≤ k → k < n * m →
      k ∈ (fbOffsetIntoRectangle fb row max_row column max_column r heap j).written ∧
        ((fbOffsetIntoRectangle fb row max_row column max_column r heap j).entries k).toNat
          < fb.size) ∧
      n * m ∉ (fbOffsetIntoRectangle fb row max_row column max_column r heap j).written ∧
      n * (m + 1) ∈ (fbOffsetIntoRectangle fb row max_row column max_column r heap j).written ∧
      (fbOffsetIntoRectangle fb row max_row column max_column r heap j).length ≤ n * (m + 1) := by
  have hexpand : n * (m + 1) = n * m + n := mul_add_one n m
  have hprod : 0 < n * m := mul_pos (by omega) (by omega)
  have hindex : (sentinelIndex max_row max_column r j).toInt = n * (m + 1) := by
    have hrounds : rounds (horizontalNumPixels max_row r) ≠ 0 := by
      rw [rounds, hn]
      omega
    have hsum : (n.toNat : ℤ) + m.toNat * n = n * (m + 1) := by
      rw [Int.toNat_of_nonneg (by omega), Int.toNat_of_nonneg (by omega), hexpand, mul_comm m n,
        add_comm]
    simp only [sentinelIndex, if_neg hrounds]
    rw [rounds, rounds, hn, hm, index_toInt (by omega) (by rw [hn, hsum]; exact hlt), hn, hsum]
  have hwritten : (fbOffsetIntoRectangle fb row max_row column max_column r heap j).written
      = (loopStores fb row max_row column max_column r).map Prod.fst ++ [n * (m + 1)] := by
    rw [fbOffsetIntoRectangle, OffsetTable.set, foldl_set_written, hindex]
    rfl
  have hmem {k : ℤ} := mem_stored (k := k) hn hm hn1 hlt fb row column
  refine ⟨fun k hk hkm => ⟨?_, ?_⟩, ?_, ?_, ?_⟩
  · rw [hwritten]
    exact List.mem_append_left _ (hmem.2 ⟨hk, hkm⟩)
  · rw [fbOffsetIntoRectangle, set_entries, hindex, if_neg (by omega)]
    rcases foldl_set_entries (k := k) (l := loopStores fb row max_row column max_column r)
      (t := ⟨(horizontalNumPixels max_row r * verticalNumPixels max_column r + 1).toInt, heap, []⟩)
      with ⟨x, hx, hentry⟩ | ⟨hnot, -⟩
    · rw [hentry]
      exact mem_loopStores hx hpos
    · exact absurd (hmem.2 ⟨hk, hkm⟩) hnot
  · rw [hwritten, List.mem_append, hmem, List.mem_singleton]
    omega
  · rw [hwritten]
    exact List.mem_append_right _ List.mem_cons_self
  · have hlen : (horizontalNumPixels max_row r * verticalNumPixels max_column r + 1).toInt
        = n * m + 1 := by
      have hword : horizontalNumPixels max_row r * verticalNumPixels max_column r + 1
          = BitVec.ofInt 32 (n * m + 1) := by
        rw [BitVec.ofInt_add, BitVec.ofInt_mul, ← hn, ← hm, BitVec.ofInt_toInt,
          BitVec.ofInt_toInt]
        rfl
      rw [hword, BitVec.toInt_ofInt_eq_self (by norm_num)]
      · omega
      · norm_num
        omega
    rw [fbOffsetIntoRectangle, set_length, foldl_set_length]
    change (horizontalNumPixels max_row r * verticalNumPixels max_column r + 1).toInt ≤ _
    rw [hlen]
    omega

end InRange

theorem horizontalNumPixels_eq_zero :
    horizontalNumPixels max_row r = 0 ↔ r.width = BitVec.allOnes 32 ∧ max_row = 1 := by
  have hsucc (q : Word) : q + 1 = 0 ↔ q.toNat = 2 ^ 32 - 1 := by
    rw [← BitVec.toNat_inj, BitVec.toNat_add]
    change (q.toNat + 1) % 2 ^ 32 = 0 ↔ _
    omega
  have hwidth := r.width.isLt
  rw [horizontalNumPixels, hsucc, BitVec.toNat_udiv, ← BitVec.toNat_inj, ← BitVec.toNat_inj,
    BitVec.toNat_allOnes]
  change _ ↔ r.width.toNat = 2 ^ 32 - 1 ∧ max_row.toNat = 1
  constructor
  · intro hdiv
    have hle : (2 ^ 32 - 1) * max_row.toNat ≤ r.width.toNat := by
      rw [← hdiv]
      exact Nat.div_mul_le_self ..
    have hne : max_row.toNat ≠ 0 := fun h => by
      rw [h, Nat.div_zero] at hdiv
      omega
    omega
  · rintro ⟨hwidth, hone⟩
    rw [hwidth, hone, Nat.div_one]

/-- For which rectangles the table is complete, whatever `kmalloc` and the stack hold. -/
theorem offset_table_iff (fb : FrameBuffer) (row max_row column max_column : Word) (r : Rectangle)
    (hpos : 0 < fb.size) :
    (∀ heap j, Complete fb
        ((horizontalNumPixels max_row r).toInt * (verticalNumPixels max_column r).toInt)
        (fbOffsetIntoRectangle fb row max_row column max_column r heap j)) ↔
      r.width = BitVec.allOnes 32 ∧ max_row = 1 := by
  rw [complete_iff hpos, horizontalNumPixels_eq_zero]

theorem offset_table_iff_widest : Complete (blank 4 4) 0
    (fbOffsetIntoRectangle (blank 4 4) 0 1 0 1 ⟨0, 0, 0xffffffff, 4⟩ (fun _ => 0) 7) :=
  (offset_table_iff (blank 4 4) 0 1 0 1 ⟨0, 0, 0xffffffff, 4⟩ (by decide)).2 ⟨by decide, rfl⟩
    (fun _ => 0) 7

/-- An image of one pixel for a 2x2 rectangle: nine offsets, and the sentinel at index 12 of a
table of ten entries. -/
theorem sentinel_outside : ¬ Complete (blank 4 4) (3 * 3)
      (fbOffsetIntoRectangle (blank 4 4) 0 1 0 1 ⟨0, 0, 2, 2⟩ (fun _ => 0) 0) ∧
    12 ∈ (fbOffsetIntoRectangle (blank 4 4) 0 1 0 1 ⟨0, 0, 2, 2⟩ (fun _ => 0) 0).written ∧
    (fbOffsetIntoRectangle (blank 4 4) 0 1 0 1 ⟨0, 0, 2, 2⟩ (fun _ => 0) 0).length = 10 := by
  have hnot : (3 * 3 : ℤ)
      ∉ (fbOffsetIntoRectangle (blank 4 4) 0 1 0 1 ⟨0, 0, 2, 2⟩ (fun _ => 0) 0).written :=
    (offsets_stored (by decide) (by decide) (by decide) (by decide) (by decide) (by decide)).2.1
  exact ⟨fun h => hnot h.sentinel.1, by decide, by decide⟩

end Gpu
