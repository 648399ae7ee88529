import DucreuOS.Circles

/-! # The shapes of user programs

`SYSCALL_DRAW_RECTANGLE` and `SYSCALL_DRAW_CIRCLE` copy a shape from user memory and fill it as
it is. -/
namespace Gpu

open WordLoops

/-- The call ends, and every store of it is to a pixel of the frame buffer. -/
def Safe (fb : FrameBuffer) (call : ℕ → Option FrameBuffer) : Prop :=
  ∃ fb' l, Leaves call fb' ∧ fb'.written = fb.written ++ l ∧ ∀ o ∈ l, o.toNat < fb.size

variable {fb fb' : FrameBuffer} {call : ℕ → Option FrameBuffer} {color : Pixel} {l : List Word}
  {left right top bot : Word} {inside : Word → Word → Bool}

end Gpu
