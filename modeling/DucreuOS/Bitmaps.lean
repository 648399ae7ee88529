import DucreuOS.BlockTransfers
import DucreuOS.Rectangles

/-! # Images from a block device

`gpu_fill_with_bmp`: the search for a device with an image, and the copy of the pixels through a
buffer of ten blocks. The sizes are `int`s, which are widened with their sign where they meet
64 bits. Both callers pass `&(gpu_device.fb)`. -/
namespace Gpu

open ByteMemory BlockTransfers

/-- `requests` is the history of what has been put on the queues. -/
structure BmpState where
  memory : Mem
  requests : List Transfer
  whichBlock : BitVec 64
  fb : FrameBuffer

/-- `offset_to_pixels` -/
def offsetToPixels : ℕ := 54

section Source

variable (d : Drives)

/-- `kcalloc`, which has found its block at `buffer` -/
def BmpState.kcalloc (s : BmpState) (buffer : ℕ) (size : BitVec 64) : BmpState :=
  { s with memory := fill s.memory buffer size.toNat 0 }

variable (which_dev buffer : ℕ) (bsz : BitVec 64)

end Source

/-! ## What the image is to be on the screen -/

/-- Index `i` of the frame buffer is the place of pixel `k`: the rows come from the bottom up. -/
def Target (fb : FrameBuffer) (W H k i : ℕ) : Prop :=
  H - 1 - k / W < fb.height.toNat ∧ k % W < fb.width.toNat ∧
    (H - 1 - k / W) * fb.width.toNat + k % W = i

def colour (f : ℕ → Byte) (k : ℕ) : Pixel :=
  ⟨f (offsetToPixels + 3 * k + 2), f (offsetToPixels + 3 * k + 1), f (offsetToPixels + 3 * k), 0xff⟩

/-- `fb'` is `fb` with the first `n` pixels of an image, those which are on the screen. -/
structure Shows (fb : FrameBuffer) (W H : ℕ) (f : ℕ → Byte) (n : ℕ) (fb' : FrameBuffer) :
    Prop where
  width : fb'.width = fb.width
  height : fb'.height = fb.height
  drawn : ∀ k < n, ∀ i, Target fb W H k i → fb'.pixels i = colour f k
  kept : ∀ i, (∀ k < n, ¬ Target fb W H k i) → fb'.pixels i = fb.pixels i

variable {d : Drives} {which_dev buffer : ℕ} {start_byte end_byte bsz : BitVec 64} {s : BmpState}
  {fb fb' : FrameBuffer} {W H k k' n i : ℕ} {f : ℕ → Byte}

theorem Target.unique (hk : k < W * H) (hk' : k' < W * H) (h : Target fb W H k i)
    (h' : Target fb W H k' i) : k = k' := by
  obtain ⟨-, hcol, hi⟩ := h
  obtain ⟨-, hcol', hi'⟩ := h'
  have hwidth : 0 < fb.width.toNat := by omega
  have hrow : k / W < H := Nat.div_lt_of_lt_mul hk
  have hrow' : k' / W < H := Nat.div_lt_of_lt_mul hk'
  have hmod : k % W = k' % W := by
    have hmod := Nat.mul_add_mod_of_lt (a := H - 1 - k / W) hcol
    have hmod' := Nat.mul_add_mod_of_lt (a := H - 1 - k' / W) hcol'
    rw [hi] at hmod
    rw [hi'] at hmod'
    exact hmod.symm.trans hmod'
  have hdiv : H - 1 - k / W = H - 1 - k' / W := by
    apply Nat.eq_of_mul_eq_mul_right hwidth
    omega
  have hdiv' : k / W = k' / W := by omega
  rw [← Nat.div_add_mod k W, ← Nat.div_add_mod k' W, hmod, hdiv']

theorem Shows.start : Shows fb W H f 0 fb :=
  ⟨rfl, rfl, fun _ h => absurd h (Nat.not_lt_zero _), fun _ _ => rfl⟩

/-- A pixel outside of the screen. -/
theorem Shows.skip (h : Shows fb W H f k fb') (hno : ∀ i, ¬ Target fb W H k i) :
    Shows fb W H f (k + 1) fb' where
  width := h.width
  height := h.height
  drawn j hj i hi := by
    rcases Nat.lt_succ_iff_lt_or_eq.1 hj with hj | rfl
    · exact h.drawn j hj i hi
    · exact absurd hi (hno i)
  kept i hi := h.kept i fun j hj => hi j (by omega)

theorem Shows.write (h : Shows fb W H f k fb') (hk : k < W * H) {o : Word}
    (ho : Target fb W H k o.toNat) : Shows fb W H f (k + 1) (fb'.write o (colour f k)) where
  width := h.width
  height := h.height
  drawn j hj i hi := by
    rw [write_pixels]
    rcases Nat.lt_succ_iff_lt_or_eq.1 hj with hj | rfl
    · have hne : i ≠ o.toNat := by
        rintro rfl
        have := hi.unique (by omega) hk ho
        omega
      rw [Function.update_of_ne hne]
      exact h.drawn j hj i hi
    · obtain ⟨-, -, hi⟩ := hi
      obtain ⟨-, -, ho⟩ := ho
      rw [← hi, ho, Function.update_self]
  kept i hi := by
    have hne : i ≠ o.toNat := by
      rintro rfl
      exact hi k (Nat.lt_succ_self k) ho
    rw [write_pixels, Function.update_of_ne hne]
    exact h.kept i fun j hj => hi j (by omega)

section Loop

variable {w max_pixel : BitVec 64} {I : ℕ → BmpState → Prop}

end Loop

/-! ## The buffer -/

section Whole

variable {block_size : Word}

end Whole

end Gpu
