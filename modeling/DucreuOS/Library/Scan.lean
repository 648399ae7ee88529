import Mathlib

/-! # Loops that leave early

A loop runs an index over a range and leaves at the first index that stops it. Nests of such
loops compose, so that the whole nest leaves at the first index that stops any of them. -/
namespace Scan

variable {σ ε : Type*} (state : ℕ → σ) (out : ℕ → ε) (stop : ℕ → Prop)

/-- From the state of index `a`, `f` leaves with `out j` for the first `j < b` that stops it, or
reaches the state of index `b`. -/
structure Scans (f : σ → Except ε σ) (a b : ℕ) : Prop where
  passes : (∀ j, a ≤ j → j < b → ¬ stop j) → f (state a) = .ok (state b)
  stops : ∀ j, a ≤ j → j < b → stop j → (∀ m, a ≤ m → m < j → ¬ stop m) →
    f (state a) = .error (out j)

variable {state out stop} {f g : σ → Except ε σ} {a b c : ℕ}

theorem Scans.nil (h : f (state a) = .ok (state a)) : Scans state out stop f a a where
  passes _ := h
  stops j hj hj' := absurd hj' (by omega)

/-- One index of a loop. -/
theorem Scans.single (hout : stop a → f (state a) = .error (out a))
    (hpass : ¬ stop a → f (state a) = .ok (state (a + 1))) :
    Scans state out stop f a (a + 1) where
  passes h := hpass (h a le_rfl (by omega))
  stops j hj hj' hs _ := by
    obtain rfl : j = a := by omega
    exact hout hs

theorem Scans.bind (hab : a ≤ b) (hbc : b ≤ c) (hf : Scans state out stop f a b)
    (hg : Scans state out stop g b c) : Scans state out stop (fun s => f s >>= g) a c where
  passes h := by
    have hfirst := hf.passes fun j hj hj' => h j hj (by omega)
    have hsecond := hg.passes fun j hj hj' => h j (by omega) hj'
    change f (state a) >>= g = _
    rw [hfirst]
    exact hsecond
  stops j hj hj' hs hbefore := by
    by_cases hjb : j < b
    · rw [hf.stops j hj hjb hs hbefore]
      rfl
    · rw [hf.passes fun m hm hm' => hbefore m hm (by omega)]
      exact hg.stops j (by omega) hj' hs fun m hm hm' => hbefore m (by omega) hm'

/-- A range without an index that stops. -/
theorem Scans.quiet (h : f (state a) = .ok (state b)) (hq : ∀ j, a ≤ j → j < b → ¬ stop j) :
    Scans state out stop f a b where
  passes _ := h
  stops j hj hj' hs := absurd hs (hq j hj hj')

theorem Scans.congr (hf : Scans state out stop f a b) (h : g (state a) = f (state a)) :
    Scans state out stop g a b where
  passes hq := h.trans (hf.passes hq)
  stops j hj hj' hs hbefore := h.trans (hf.stops j hj hj' hs hbefore)

/-! ## Loops that run to their end -/

/-- What holds in front of round `i` and is carried over it holds after the last round. -/
theorem fold_invariant {P : ℕ → σ → Prop} {f : ℕ → σ → σ} {s : σ} (n : ℕ) (hinit : P 0 s)
    (hround : ∀ i < n, ∀ s, P i s → P (i + 1) (f i s)) :
    P n (n.fold (fun i _ => f i) s) := by
  induction n with
  | zero => exact hinit
  | succ n ih =>
    rw [Nat.fold_succ]
    exact hround n (Nat.lt_succ_self n) _ (ih fun i hi => hround i (Nat.lt_succ_of_lt hi))

end Scan
