import DucreuOS.Library.WordLoops

/-! # The frame buffer and `gpu_fill_rectangle`

The pixels are indexed from `fb.pixels` on, so that an index from `width * height` on reaches
what lies behind them. All arithmetic of the source is on 32 bits. -/
namespace Gpu

open WordLoops

abbrev Word := BitVec 32

@[ext] structure Pixel where
  r : BitVec 8
  g : BitVec 8
  b : BitVec 8
  a : BitVec 8
  deriving DecidableEq

structure Rectangle where
  x : Word
  y : Word
  width : Word
  height : Word

/-- `written` is the history of the indexes stored to. -/
structure FrameBuffer where
  width : Word
  height : Word
  pixels : ℕ → Pixel
  written : List Word

namespace FrameBuffer

/-- How many pixels there are. -/
def size (fb : FrameBuffer) : ℕ := fb.width.toNat * fb.height.toNat

/-- `fb->pixels[fb_offset] = color` -/
def write (fb : FrameBuffer) (fb_offset : Word) (color : Pixel) : FrameBuffer :=
  { fb with
    pixels := Function.update fb.pixels fb_offset.toNat color
    written := fb.written ++ [fb_offset] }

/-- One colour at a list of offsets. -/
def paint (fb : FrameBuffer) (l : List Word) (color : Pixel) : FrameBuffer :=
  l.foldl (fun fb o => fb.write o color) fb

end FrameBuffer

def fillRectangle (fuel : ℕ) (fb : FrameBuffer) (r : Rectangle) (color : Pixel) :
    Option FrameBuffer :=
  let r_left := r.x
  let r_right := r.x + r.width
  let r_top := r.y
  let r_bot := r.y + r.height
  upTo (fun row => upTo (fun col fb => some (fb.write (fb.width * row + col) color))
    r_right fuel r_left) r_bot fuel r_top fb

/-! ## What is painted -/

/-- The offsets of the pixels of a box that are inside a shape, in the order of the loops. -/
def offsets (width : Word) (rows cols : List Word) (inside : Word → Word → Bool) : List Word :=
  rows.flatMap fun row => (cols.filter (inside row)).map fun col => width * row + col

/-- `fb'` is `fb` after stores of the colour at the indexes in `S`, each of which is stored to,
and nowhere else. -/
structure Painted (fb : FrameBuffer) (color : Pixel) (S : ℕ → Prop) (fb' : FrameBuffer) : Prop where
  written : ∃ l, fb'.written = fb.written ++ l ∧ ∀ i, S i ↔ ∃ o ∈ l, o.toNat = i
  painted : ∀ i, S i → fb'.pixels i = color
  kept : ∀ i, ¬ S i → fb'.pixels i = fb.pixels i

/-- Given enough tests, the loops of the call end and leave `fb'`. -/
def Leaves (call : ℕ → Option FrameBuffer) (fb' : FrameBuffer) : Prop :=
  ∃ fuel, call fuel = some fb'

/-- The call ends, paints exactly the indexes in `S`, and these are pixels of the frame buffer. -/
def Fills (fb : FrameBuffer) (color : Pixel) (S : ℕ → Prop) (call : ℕ → Option FrameBuffer) :
    Prop :=
  ∃ fb', Leaves call fb' ∧ Painted fb color S fb' ∧ ∀ i, S i → i < fb.size

variable {fb fb' : FrameBuffer} {color : Pixel} {l rows cols : List Word} {i : ℕ} {o : Word}
  {inside : Word → Word → Bool} {S : ℕ → Prop}

@[simp] theorem write_width : (fb.write o color).width = fb.width := rfl

@[simp] theorem write_pixels :
    (fb.write o color).pixels = Function.update fb.pixels o.toNat color := rfl

theorem paint_cons : fb.paint (o :: l) color = (fb.write o color).paint l color := rfl

theorem paint_append (l' : List Word) :
    fb.paint (l ++ l') color = (fb.paint l color).paint l' color := List.foldl_append

@[simp] theorem paint_width : (fb.paint l color).width = fb.width := by
  induction l generalizing fb with
  | nil => rfl
  | cons o l ih => rw [paint_cons, ih, write_width]

theorem paint_written : (fb.paint l color).written = fb.written ++ l := by
  induction l generalizing fb with
  | nil => exact (List.append_nil fb.written).symm
  | cons o l ih =>
    rw [paint_cons, ih, FrameBuffer.write]
    exact List.append_assoc ..

theorem paint_pixels_of_not (h : ¬ ∃ o ∈ l, o.toNat = i) :
    (fb.paint l color).pixels i = fb.pixels i := by
  induction l generalizing fb with
  | nil => rfl
  | cons o l ih =>
    have ho : i ≠ o.toNat := fun e => h ⟨o, List.mem_cons_self, e.symm⟩
    have hl : ¬ ∃ o ∈ l, o.toNat = i :=
      fun ⟨c, hc, hci⟩ => h ⟨c, List.mem_cons_of_mem o hc, hci⟩
    rw [paint_cons, ih hl, write_pixels, Function.update_of_ne ho]

theorem paint_pixels_of_mem (h : o ∈ l) : (fb.paint l color).pixels o.toNat = color := by
  induction l generalizing fb with
  | nil => cases h
  | cons c l ih =>
    rw [paint_cons]
    by_cases hl : ∃ o' ∈ l, o'.toNat = o.toNat
    · obtain ⟨o', ho', heq⟩ := hl
      obtain rfl := BitVec.eq_of_toNat_eq heq
      exact ih ho'
    · have hoc : o = c := (List.mem_cons.1 h).resolve_right fun hm => hl ⟨o, hm, rfl⟩
      rw [paint_pixels_of_not hl, write_pixels, hoc, Function.update_self]

theorem painted_paint_iff :
    Painted fb color S (fb.paint l color) ↔ ∀ i, S i ↔ ∃ o ∈ l, o.toNat = i := by
  constructor
  · rintro ⟨⟨l', hl', hS⟩, -, -⟩
    rw [paint_written, List.append_cancel_left_eq] at hl'
    rwa [hl']
  · intro hS
    refine ⟨⟨l, paint_written, hS⟩, fun i hi => ?_, fun i hi => ?_⟩
    · obtain ⟨o, ho, rfl⟩ := (hS i).1 hi
      exact paint_pixels_of_mem ho
    · exact paint_pixels_of_not fun h => hi ((hS i).2 h)

/-- The two loops of a fill paint the offsets of the box one after the other. -/
theorem foldl_draw : rows.foldl (fun fb row => cols.foldl (fun fb col =>
      if inside row col then fb.write (fb.width * row + col) color else fb) fb) fb
    = fb.paint (offsets fb.width rows cols inside) color := by
  have hrow (row : Word) (fb : FrameBuffer) : cols.foldl (fun fb col =>
        if inside row col then fb.write (fb.width * row + col) color else fb) fb
      = fb.paint ((cols.filter (inside row)).map fun col => fb.width * row + col) color := by
    induction cols generalizing fb with
    | nil => rfl
    | cons col cols ih =>
      rw [List.foldl_cons, ih]
      cases hin : inside row col <;> simp [hin, paint_cons]
  induction rows generalizing fb with
  | nil => rfl
  | cons row rows ih =>
    rw [List.foldl_cons, hrow, ih, paint_width]
    exact (paint_append _).symm

theorem mem_offsets {width left right top bot : Word} :
    o ∈ offsets width (counters top bot) (counters left right) inside ↔
      ∃ row col, (top ≤ row ∧ row ≤ bot) ∧ (left ≤ col ∧ col ≤ right) ∧ inside row col = true ∧
        width * row + col = o := by
  simp only [offsets, List.mem_flatMap, List.mem_map, List.mem_filter, mem_counters]
  constructor
  · rintro ⟨row, hrow, col, ⟨hcol, hin⟩, ho⟩
    exact ⟨row, col, hrow, hcol, hin, ho⟩
  · rintro ⟨row, col, hrow, hcol, hin, ho⟩
    exact ⟨row, hrow, col, ⟨hcol, hin⟩, ho⟩

/-- When the two loops of a fill end, and with what. -/
theorem fill_leaves (inside : Word → Word → Bool) (left right top bot : Word) :
    Leaves (fun fuel => upTo (fun row => upTo (fun col fb => some
        (if inside row col then fb.write (fb.width * row + col) color else fb))
          right fuel left) bot fuel top fb) fb' ↔
      bot ≠ BitVec.allOnes 32 ∧ (bot < top ∨ right ≠ BitVec.allOnes 32) ∧
        fb.paint (offsets fb.width (counters top bot) (counters left right) inside) color = fb' := by
  rw [Leaves, nest_ends, foldl_draw]

/-- The offsets that `fillRectangle` stores to. -/
def rectangleOffsets (width : Word) (r : Rectangle) : List Word :=
  offsets width (counters r.y (r.y + r.height)) (counters r.x (r.x + r.width)) fun _ _ => true

theorem fillRectangle_leaves {r : Rectangle} :
    Leaves (fun fuel => fillRectangle fuel fb r color) fb' ↔
      r.y + r.height ≠ BitVec.allOnes 32 ∧
        (r.y + r.height < r.y ∨ r.x + r.width ≠ BitVec.allOnes 32) ∧
        fb.paint (rectangleOffsets fb.width r) color = fb' :=
  fill_leaves (fun _ _ => true) r.x (r.x + r.width) r.y (r.y + r.height)

/-! ## Rectangles on the screen -/

def OnScreen (fb : FrameBuffer) (r : Rectangle) : Prop :=
  r.x.toNat + r.width.toNat ≤ fb.width.toNat ∧ r.y.toNat + r.height.toNat ≤ fb.height.toNat

/-- The indexes of the pixels of a rectangle. -/
def RectanglePixel (width : Word) (r : Rectangle) (i : ℕ) : Prop :=
  ∃ row col, (r.y.toNat ≤ row ∧ row < r.y.toNat + r.height.toNat) ∧
    (r.x.toNat ≤ col ∧ col < r.x.toNat + r.width.toNat) ∧ width.toNat * row + col = i

/-- The indexes of a rectangle with one more column and one more row, on 32 bits. -/
def GrownPixel (width : Word) (r : Rectangle) (i : ℕ) : Prop :=
  ∃ row col, (r.y.toNat ≤ row ∧ row ≤ r.y.toNat + r.height.toNat) ∧
    (r.x.toNat ≤ col ∧ col ≤ r.x.toNat + r.width.toNat) ∧
    (width.toNat * row + col) % 2 ^ 32 = i

theorem offset_toNat (width row col : Word) :
    (width * row + col).toNat = (width.toNat * row.toNat + col.toNat) % 2 ^ 32 := by
  rw [BitVec.toNat_add, BitVec.toNat_mul, Nat.mod_add_mod]

theorem index_lt {width height row col : ℕ} (hrow : row < height) (hcol : col < width) :
    width * row + col < width * height := by
  have hle : width * (row + 1) ≤ width * height := Nat.mul_le_mul_left width hrow
  rw [Nat.mul_succ] at hle
  omega

variable {r r' : Rectangle}

theorem OnScreen.right_toNat (h : OnScreen fb r) :
    (r.x + r.width).toNat = r.x.toNat + r.width.toNat := by
  have := fb.width.isLt
  exact BitVec.toNat_add_of_lt (lt_of_le_of_lt h.1 this)

theorem OnScreen.bot_toNat (h : OnScreen fb r) :
    (r.y + r.height).toNat = r.y.toNat + r.height.toNat := by
  have := fb.height.isLt
  exact BitVec.toNat_add_of_lt (lt_of_le_of_lt h.2 this)

theorem OnScreen.mem_rectangleOffsets (h : OnScreen fb r) :
    (∃ o ∈ rectangleOffsets fb.width r, o.toNat = i) ↔ GrownPixel fb.width r i := by
  simp only [rectangleOffsets, mem_offsets, BitVec.le_def, h.right_toNat, h.bot_toNat, true_and]
  constructor
  · rintro ⟨o, ⟨row, col, hrow, hcol, rfl⟩, rfl⟩
    exact ⟨row.toNat, col.toNat, hrow, hcol, (offset_toNat ..).symm⟩
  · rintro ⟨row, col, hrow, hcol, rfl⟩
    have hrow' : (BitVec.ofNat 32 row).toNat = row := by
      rw [BitVec.toNat_ofNat, Nat.mod_eq_of_lt]
      have := fb.height.isLt
      have := h.2
      omega
    have hcol' : (BitVec.ofNat 32 col).toNat = col := by
      rw [BitVec.toNat_ofNat, Nat.mod_eq_of_lt]
      have := fb.width.isLt
      have := h.1
      omega
    refine ⟨_, ⟨BitVec.ofNat 32 row, BitVec.ofNat 32 col, ?_, ?_, rfl⟩, ?_⟩
    · rwa [hrow']
    · rwa [hcol']
    · rw [offset_toNat, hrow', hcol']

/-- The indexes of a box agree with those of the grown box only where the last index is the
greatest one and the box is everything before it. -/
theorem grown_box_iff {N W x y w h : ℕ} (hW : W < N) (hx : x + w ≤ W) :
    (∀ i, (∃ row col, (y ≤ row ∧ row < y + h) ∧ (x ≤ col ∧ col < x + w) ∧ W * row + col = i) ↔
      ∃ row col, (y ≤ row ∧ row ≤ y + h) ∧ (x ≤ col ∧ col ≤ x + w) ∧ (W * row + col) % N = i) ↔
      x = 0 ∧ y = 0 ∧ w = W ∧ W * h = N := by
  constructor
  · intro hS
    obtain ⟨row₀, col₀, hrow₀, hcol₀, -⟩ :=
      (hS ((W * y + x) % N)).2 ⟨y, x, by omega, by omega, rfl⟩
    have hmono (row : ℕ) (hrow : row < y + h) : W * row ≤ W * (y + h - 1) :=
      Nat.mul_le_mul_left W (by omega)
    -- one behind the last index of the box
    have hlast : W * (y + h - 1) + (x + w - 1) < N := by
      obtain ⟨row, col, -, -, heq⟩ := (hS _).1 ⟨y + h - 1, x + w - 1, by omega, by omega, rfl⟩
      rw [← heq]
      exact Nat.mod_lt _ (by omega)
    have hnext : W * (y + h - 1) + (x + w) = N := by
      by_contra hne
      have hlt : W * (y + h - 1) + (x + w) < N := by omega
      obtain ⟨row, col, hrow, hcol, heq⟩ :=
        (hS _).2 ⟨y + h - 1, x + w, by omega, by omega, Nat.mod_eq_of_lt hlt⟩
      have := hmono row hrow.2
      omega
    obtain ⟨row, col, hrow, hcol, hzero⟩ :=
      (hS 0).2 ⟨y + h - 1, x + w, by omega, by omega, by rw [hnext, Nat.mod_self]⟩
    obtain ⟨hWrow, rfl⟩ : W * row = 0 ∧ col = 0 := by omega
    obtain rfl : row = 0 := (Nat.mul_eq_zero.1 hWrow).resolve_left (by omega)
    obtain ⟨rfl, rfl⟩ : x = 0 ∧ y = 0 := by omega
    have hw : w = W := by
      by_contra hne
      obtain ⟨row, col, -, hcol', heq⟩ := (hS w).2 ⟨0, w, by omega, by omega, by
        rw [Nat.mul_zero, Nat.zero_add, Nat.mod_eq_of_lt (by omega)]⟩
      cases row with
      | zero => omega
      | succ row =>
        rw [Nat.mul_succ] at heq
        omega
    refine ⟨rfl, rfl, hw, ?_⟩
    have hsucc : W * (h - 1) + W = W * h := by
      rw [← Nat.mul_succ, Nat.succ_eq_add_one, Nat.sub_add_cancel (by omega)]
    rw [Nat.zero_add, Nat.zero_add, hw] at hnext
    omega
  · rintro ⟨rfl, rfl, rfl, hN⟩ i
    have hpos : 0 < w := Nat.pos_of_ne_zero fun h0 => by
      rw [h0, Nat.zero_mul] at hN
      omega
    constructor
    · rintro ⟨row, col, hrow, hcol, rfl⟩
      refine ⟨row, col, by omega, by omega, Nat.mod_eq_of_lt ?_⟩
      rw [← hN]
      exact index_lt (by omega) (by omega)
    · rintro ⟨row, col, -, -, hi⟩
      have hlt : i < w * h := by
        rw [hN, ← hi]
        exact Nat.mod_lt _ (by omega)
      have hrow : i / w < h := Nat.div_lt_of_lt_mul hlt
      have hcol : i % w < w := Nat.mod_lt i hpos
      exact ⟨i / w, i % w, ⟨Nat.zero_le _, by rwa [Nat.zero_add]⟩,
        ⟨Nat.zero_le _, by rwa [Nat.zero_add]⟩, Nat.div_add_mod ..⟩

theorem OnScreen.grown_iff (h : OnScreen fb r) :
    (∀ i, RectanglePixel fb.width r i ↔ GrownPixel fb.width r i) ↔
      r.x = 0 ∧ r.y = 0 ∧ r.width = fb.width ∧ fb.width.toNat * r.height.toNat = 2 ^ 32 := by
  simp only [RectanglePixel, GrownPixel, grown_box_iff fb.width.isLt h.1, ← BitVec.toNat_inj]
  exact Iff.rfl

/-- Both loops end for a rectangle on the screen. -/
def Ends (r : Rectangle) : Prop :=
  r.x.toNat + r.width.toNat ≠ 2 ^ 32 - 1 ∧ r.y.toNat + r.height.toNat ≠ 2 ^ 32 - 1

theorem ne_allOnes_iff {a : Word} : a ≠ BitVec.allOnes 32 ↔ a.toNat ≠ 2 ^ 32 - 1 := by
  rw [← BitVec.toNat_allOnes, ne_eq, ne_eq, BitVec.toNat_inj]

theorem OnScreen.leaves_iff (h : OnScreen fb r) :
    Leaves (fun fuel => fillRectangle fuel fb r color) fb' ↔
      Ends r ∧ fb.paint (rectangleOffsets fb.width r) color = fb' := by
  have hbot : ¬ r.y + r.height < r.y := by
    rw [BitVec.lt_def, h.bot_toNat]
    omega
  rw [fillRectangle_leaves, ne_allOnes_iff, ne_allOnes_iff, h.bot_toNat, h.right_toNat, Ends]
  tauto

theorem OnScreen.pixel_lt (h : OnScreen fb r) (hi : RectanglePixel fb.width r i) : i < fb.size := by
  obtain ⟨row, col, hrow, hcol, rfl⟩ := hi
  have hx := h.1
  have hy := h.2
  exact index_lt (by omega) (by omega)

theorem fillRectangle_fills_iff (h : OnScreen fb r) :
    Fills fb color (RectanglePixel fb.width r) (fun fuel => fillRectangle fuel fb r color) ↔
      r.x = 0 ∧ r.y = 0 ∧ r.width = fb.width ∧ fb.width.toNat * r.height.toNat = 2 ^ 32 := by
  have hpainted : Painted fb color (RectanglePixel fb.width r)
      (fb.paint (rectangleOffsets fb.width r) color) ↔
        ∀ i, RectanglePixel fb.width r i ↔ GrownPixel fb.width r i := by
    simp only [painted_paint_iff, h.mem_rectangleOffsets]
  constructor
  · rintro ⟨fb', hcall, hp, -⟩
    obtain ⟨-, rfl⟩ := h.leaves_iff.1 hcall
    exact h.grown_iff.1 (hpainted.1 hp)
  · intro hfull
    refine ⟨_, h.leaves_iff.2 ⟨?_, rfl⟩, hpainted.2 (h.grown_iff.2 hfull), fun i => h.pixel_lt⟩
    obtain ⟨hx, hy, hw, hsize⟩ := hfull
    have hW := fb.width.isLt
    have hH := r.height.isLt
    rw [Ends, hx, hy, hw]
    change 0 + _ ≠ _ ∧ 0 + _ ≠ _
    rw [Nat.zero_add, Nat.zero_add]
    -- neither factor of 2 ^ 32 is 2 ^ 32 - 1
    constructor
    · intro he
      rw [he] at hsize
      omega
    · intro he
      rw [he] at hsize
      omega

/-! ## Two rectangles -/

/-- Filling the one and then the other ends in either order, with the same pixels. -/
def Commute (fb : FrameBuffer) (r r' : Rectangle) : Prop :=
  ∀ color color', ∃ fb₁ fb₂ fb₁' fb₂',
    Leaves (fun fuel => fillRectangle fuel fb r color) fb₁ ∧
    Leaves (fun fuel => fillRectangle fuel fb₁ r' color') fb₂ ∧
    Leaves (fun fuel => fillRectangle fuel fb r' color') fb₁' ∧
    Leaves (fun fuel => fillRectangle fuel fb₁' r color) fb₂' ∧ fb₂.pixels = fb₂'.pixels

@[simp] theorem paint_height : (fb.paint l color).height = fb.height := by
  induction l generalizing fb with
  | nil => rfl
  | cons o l ih => exact ih

theorem OnScreen.paint (h : OnScreen fb r) : OnScreen (fb.paint l color) r := by
  rwa [OnScreen, paint_width, paint_height]

theorem paint_comm_iff (fb : FrameBuffer) {l' : List Word} :
    (∀ color color', ((fb.paint l color).paint l' color').pixels
      = ((fb.paint l' color').paint l color).pixels) ↔ ∀ o, ¬ (o ∈ l ∧ o ∈ l') := by
  constructor
  · rintro hcomm o ⟨hl, hl'⟩
    have := congrFun (hcomm ⟨0, 0, 0, 0⟩ ⟨1, 0, 0, 0⟩) o.toNat
    rw [paint_pixels_of_mem hl', paint_pixels_of_mem hl] at this
    exact absurd this (by decide)
  · intro hdisj color color'
    funext i
    by_cases hl : ∃ o ∈ l, o.toNat = i
    · obtain ⟨o, ho, rfl⟩ := hl
      have hnot : ¬ ∃ c ∈ l', c.toNat = o.toNat := by
        rintro ⟨c, hc, heq⟩
        exact hdisj o ⟨ho, BitVec.eq_of_toNat_eq heq ▸ hc⟩
      rw [paint_pixels_of_not hnot, paint_pixels_of_mem ho, paint_pixels_of_mem ho]
    · rw [paint_pixels_of_not hl]
      by_cases hl' : ∃ o ∈ l', o.toNat = i
      · obtain ⟨o, ho, rfl⟩ := hl'
        rw [paint_pixels_of_mem ho, paint_pixels_of_mem ho]
      · rw [paint_pixels_of_not hl', paint_pixels_of_not hl', paint_pixels_of_not hl]

theorem commute_iff (h : OnScreen fb r) (h' : OnScreen fb r') : Commute fb r r' ↔
    Ends r ∧ Ends r' ∧ ∀ i, ¬ (GrownPixel fb.width r i ∧ GrownPixel fb.width r' i) := by
  have hdisj : (∀ o, ¬ (o ∈ rectangleOffsets fb.width r ∧ o ∈ rectangleOffsets fb.width r')) ↔
      ∀ i, ¬ (GrownPixel fb.width r i ∧ GrownPixel fb.width r' i) := by
    simp only [← h.mem_rectangleOffsets, ← h'.mem_rectangleOffsets]
    constructor
    · rintro hno i ⟨⟨o, ho, rfl⟩, ⟨c, hc, heq⟩⟩
      exact hno o ⟨ho, BitVec.eq_of_toNat_eq heq ▸ hc⟩
    · rintro hno o ⟨ho, ho'⟩
      exact hno o.toNat ⟨⟨o, ho, rfl⟩, ⟨o, ho', rfl⟩⟩
  have hleaves (color color' : Pixel) : (∃ fb₁ fb₂ fb₁' fb₂',
      Leaves (fun fuel => fillRectangle fuel fb r color) fb₁ ∧
      Leaves (fun fuel => fillRectangle fuel fb₁ r' color') fb₂ ∧
      Leaves (fun fuel => fillRectangle fuel fb r' color') fb₁' ∧
      Leaves (fun fuel => fillRectangle fuel fb₁' r color) fb₂' ∧ fb₂.pixels = fb₂'.pixels) ↔
        Ends r ∧ Ends r' ∧ ((fb.paint (rectangleOffsets fb.width r) color).paint
          (rectangleOffsets fb.width r') color').pixels
            = ((fb.paint (rectangleOffsets fb.width r') color').paint
              (rectangleOffsets fb.width r) color).pixels := by
    constructor
    · rintro ⟨fb₁, fb₂, fb₁', fb₂', h₁, h₂, h₁', h₂', heq⟩
      obtain ⟨hends, rfl⟩ := h.leaves_iff.1 h₁
      obtain ⟨hends', rfl⟩ := h'.leaves_iff.1 h₁'
      obtain ⟨-, rfl⟩ := h'.paint.leaves_iff.1 h₂
      obtain ⟨-, rfl⟩ := h.paint.leaves_iff.1 h₂'
      rw [paint_width, paint_width] at heq
      exact ⟨hends, hends', heq⟩
    · rintro ⟨hends, hends', heq⟩
      refine ⟨_, _, _, _, h.leaves_iff.2 ⟨hends, rfl⟩, h'.paint.leaves_iff.2 ⟨hends', rfl⟩,
        h'.leaves_iff.2 ⟨hends', rfl⟩, h.paint.leaves_iff.2 ⟨hends, rfl⟩, ?_⟩
      rwa [paint_width, paint_width]
  simp only [Commute, hleaves, ← hdisj, ← paint_comm_iff fb]
  constructor
  · intro hall
    have hends := hall ⟨0, 0, 0, 0⟩ ⟨0, 0, 0, 0⟩
    exact ⟨hends.1, hends.2.1, fun color color' => (hall color color').2.2⟩
  · rintro ⟨hends, hends', hcomm⟩ color color'
    exact ⟨hends, hends', hcomm color color'⟩

/-- Which rectangles on the screen are filled exactly, and which two of them commute. -/
theorem rectangles_filled_iff (fb : FrameBuffer) (r r' : Rectangle) (color : Pixel)
    (h : OnScreen fb r) (h' : OnScreen fb r') :
    (Fills fb color (RectanglePixel fb.width r) (fun fuel => fillRectangle fuel fb r color) ↔
      r.x = 0 ∧ r.y = 0 ∧ r.width = fb.width ∧ fb.width.toNat * r.height.toNat = 2 ^ 32) ∧
    (Commute fb r r' ↔
      Ends r ∧ Ends r' ∧ ∀ i, ¬ (GrownPixel fb.width r i ∧ GrownPixel fb.width r' i)) :=
  ⟨fillRectangle_fills_iff h, commute_iff h h'⟩

/-- A black screen. -/
def blank (width height : Word) : FrameBuffer := ⟨width, height, fun _ => ⟨0, 0, 0, 0⟩, []⟩

/-- Two pixels of a small screen, in the corners. -/
theorem rectangles_filled_iff_corners :
    ¬ Fills (blank 4 4) ⟨1, 0, 0, 0⟩ (RectanglePixel 4 ⟨0, 0, 1, 1⟩)
        (fun fuel => fillRectangle fuel (blank 4 4) ⟨0, 0, 1, 1⟩ ⟨1, 0, 0, 0⟩) ∧
      Commute (blank 4 4) ⟨0, 0, 1, 1⟩ ⟨2, 2, 1, 1⟩ := by
  obtain ⟨hfills, hcommute⟩ := rectangles_filled_iff (blank 4 4) ⟨0, 0, 1, 1⟩ ⟨2, 2, 1, 1⟩
    ⟨1, 0, 0, 0⟩ ⟨by decide, by decide⟩ ⟨by decide, by decide⟩
  refine ⟨fun h => absurd (hfills.1 h).2.2.1 (by decide),
    hcommute.2 ⟨⟨by decide, by decide⟩, ⟨by decide, by decide⟩, ?_⟩⟩
  rintro i ⟨⟨row, col, hrow, hcol, rfl⟩, ⟨row', col', hrow', hcol', heq⟩⟩
  change (4 * row' + col') % 2 ^ 32 = (4 * row + col) % 2 ^ 32 at heq
  change 0 ≤ row ∧ row ≤ 0 + 1 at hrow
  change 0 ≤ col ∧ col ≤ 0 + 1 at hcol
  change 2 ≤ row' ∧ row' ≤ 2 + 1 at hrow'
  change 2 ≤ col' ∧ col' ≤ 2 + 1 at hcol'
  omega

/-- The single pixel (1, 1) and the one to its right: four pixels are painted for each of them,
two of them the same. -/
theorem neighbours_overlap : OnScreen (blank 4 4) ⟨1, 1, 1, 1⟩ ∧
    OnScreen (blank 4 4) ⟨2, 1, 1, 1⟩ ∧
    (∀ i, ¬ (RectanglePixel 4 ⟨1, 1, 1, 1⟩ i ∧ RectanglePixel 4 ⟨2, 1, 1, 1⟩ i)) ∧
    ¬ Fills (blank 4 4) ⟨1, 0, 0, 0⟩ (RectanglePixel 4 ⟨1, 1, 1, 1⟩)
        (fun fuel => fillRectangle fuel (blank 4 4) ⟨1, 1, 1, 1⟩ ⟨1, 0, 0, 0⟩) ∧
    ¬ Commute (blank 4 4) ⟨1, 1, 1, 1⟩ ⟨2, 1, 1, 1⟩ := by
  have h : OnScreen (blank 4 4) ⟨1, 1, 1, 1⟩ := ⟨by decide, by decide⟩
  have h' : OnScreen (blank 4 4) ⟨2, 1, 1, 1⟩ := ⟨by decide, by decide⟩
  refine ⟨h, h', ?_, ?_, ?_⟩
  · rintro i ⟨⟨row, col, hrow, hcol, rfl⟩, ⟨row', col', hrow', hcol', heq⟩⟩
    change 4 * row' + col' = 4 * row + col at heq
    change 1 ≤ col ∧ col < 1 + 1 at hcol
    change 2 ≤ col' ∧ col' < 2 + 1 at hcol'
    omega
  · intro hfills
    exact absurd ((fillRectangle_fills_iff h).1 hfills).1 (by decide)
  · intro hcommute
    have hshared : GrownPixel 4 ⟨1, 1, 1, 1⟩ 6 ∧ GrownPixel 4 ⟨2, 1, 1, 1⟩ 6 :=
      ⟨⟨1, 2, by decide, by decide, rfl⟩, ⟨1, 2, by decide, by decide, rfl⟩⟩
    exact ((commute_iff h h').1 hcommute).2.2 6 hshared

end Gpu
