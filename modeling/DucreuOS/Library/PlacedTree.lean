import Mathlib

/-! # Trees laid out in a store

A tree of fixed shape, each place of which is a root or a slot of the block that another place
names. A store gives every place a value. Changes of the store are followed place by place: what
is read along unchanged blocks stays, and nothing hangs below an empty block. -/
namespace PlacedTree

variable {N ρ ι ν : Type*}

inductive Place (N ρ ι : Type*)
  | root (r : ρ)
  | slot (p : N) (s : ι)

/-- Where each place lies; going up always ends. -/
structure Shape (N ρ ι : Type*) where
  place : N → Place N ρ ι
  rank : N → ℕ
  rank_lt : ∀ n p s, place n = .slot p s → rank p < rank n

namespace Shape

variable (sh : Shape N ρ ι)

/-- `val` is what the roots and the slots of the store hold. -/
def Reads (roots : ρ → ν) (slots : ν → ι → ν) (val : N → ν) : Prop :=
  ∀ n, val n = match sh.place n with
    | .root r => roots r
    | .slot p s => slots (val p) s

/-- `n` is `q` or lies below it. -/
inductive Under (q : N) : N → Prop
  | refl : Under q q
  | slot {n p : N} {s : ι} : sh.place n = .slot p s → Under q p → Under q n

/-- A set of places that contains what lies above them. -/
def Upward (K : N → Prop) : Prop := ∀ n p s, K n → sh.place n = .slot p s → K p

variable {sh} {roots roots' : ρ → ν} {slots slots' : ν → ι → ν} {val val' : N → ν}

theorem Reads.root {n : N} {r : ρ} (h : sh.Reads roots slots val) (hn : sh.place n = .root r) :
    val n = roots r := by
  rw [h n, hn]

theorem Reads.slot {n p : N} {s : ι} (h : sh.Reads roots slots val)
    (hn : sh.place n = .slot p s) : val n = slots (val p) s := by
  rw [h n, hn]

/-- Two stores that agree along the places of a set agree on the set. -/
theorem Reads.agree {K : N → Prop} (hK : sh.Upward K) (h : sh.Reads roots slots val)
    (h' : sh.Reads roots' slots' val')
    (hroots : ∀ n r, K n → sh.place n = .root r → roots' r = roots r)
    (hslots : ∀ n p s, K n → sh.place n = .slot p s → slots' (val p) s = slots (val p) s)
    (n : N) (hn : K n) : val' n = val n := by
  induction hr : sh.rank n using Nat.strong_induction_on generalizing n with
  | _ k ih =>
    cases hp : sh.place n with
    | root r => rw [h.root hp, h'.root hp, hroots n r hn hp]
    | slot p s =>
      have hup : val' p = val p :=
        ih (sh.rank p) (hr ▸ sh.rank_lt n p s hp) p (hK n p s hn hp) rfl
      rw [h.slot hp, h'.slot hp, hup, hslots n p s hn hp]

/-- Nothing hangs below a place that names an empty block. -/
theorem Reads.empty_below {D : N → Prop} (hD : sh.Upward D) {q : N} {zero : ν}
    (h : sh.Reads roots slots val) (hzero : ∀ s, slots zero s = zero)
    (hq : ∀ n s, D n → sh.place n = .slot q s → slots (val q) s = zero) {n : N}
    (hn : sh.Under q n) (hne : n ≠ q) (hd : D n) : val n = zero := by
  induction hn with
  | refl => exact absurd rfl hne
  | @slot n p s hp _ ih =>
    by_cases hpq : p = q
    · subst hpq
      rw [h.slot hp, hq n s hd hp]
    · rw [h.slot hp, ih hpq (hD n p s hd hp), hzero]

theorem Under.rank_le {q n : N} (h : sh.Under q n) : sh.rank q ≤ sh.rank n := by
  induction h with
  | refl => exact le_rfl
  | slot hp _ ih => exact ih.trans (sh.rank_lt _ _ _ hp).le

theorem Under.trans {q p n : N} (h : sh.Under q p) (h' : sh.Under p n) : sh.Under q n := by
  induction h' with
  | refl => exact h
  | slot hp _ ih => exact .slot hp ih

/-- Nothing lies below a place that no slot names. -/
theorem Under.leaf {q n : N} (hq : ∀ m s, sh.place m ≠ .slot q s) (h : sh.Under q n) : n = q := by
  induction h with
  | refl => rfl
  | slot hp _ ih => exact absurd (ih ▸ hp) (hq _ _)

/-- What lies above a place does not lie below it. -/
theorem not_under_of_slot {q p : N} {s : ι} (h : sh.place q = .slot p s) : ¬ sh.Under q p :=
  fun hu => absurd hu.rank_le (not_le.mpr (sh.rank_lt q p s h))

/-- What does not lie below a place is closed upwards. -/
theorem Upward.outside {D : N → Prop} (hD : sh.Upward D) (q : N) :
    sh.Upward fun n => D n ∧ ¬ sh.Under q n :=
  fun n p s ⟨hd, hu⟩ hp => ⟨hD n p s hd hp, fun h => hu (.slot hp h)⟩

end Shape

end PlacedTree
