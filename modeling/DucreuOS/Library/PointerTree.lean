import Mathlib

/-! # Trees of pointers in a store

A store gives each node and index at most one child. A path is written deepest index first.
No aliasing up to a depth makes the effect of one new link local: only one path gains a node. -/
namespace PointerTree

variable {ν ι : Type*}

/-- The node at the end of a path from the root. -/
def walk (c : ν → ι → Option ν) (root : ν) : List ι → Option ν
  | [] => some root
  | i :: σ => (walk c root σ).bind fun a => c a i

@[simp] theorem walk_nil (c : ν → ι → Option ν) (root : ν) : walk c root [] = some root := rfl

theorem walk_cons (c : ν → ι → Option ν) (root : ν) (i : ι) (σ : List ι) :
    walk c root (i :: σ) = (walk c root σ).bind fun a => c a i := rfl

theorem walk_cons_some {c : ν → ι → Option ν} {root a b : ν} {i : ι} {σ : List ι}
    (h : walk c root σ = some a) (h' : c a i = some b) : walk c root (i :: σ) = some b := by
  rw [walk_cons, h, Option.bind_some, h']

/-- Different paths of length at most `d` end at different nodes. -/
def NoAlias (c : ν → ι → Option ν) (root : ν) (d : ℕ) : Prop :=
  ∀ σ τ : List ι, σ.length ≤ d → τ.length ≤ d → ∀ a,
    walk c root σ = some a → walk c root τ = some a → σ = τ

/-- A node is in the tree of depth `d`. -/
def InTree (c : ν → ι → Option ν) (root : ν) (d : ℕ) (a : ν) : Prop :=
  ∃ σ : List ι, σ.length ≤ d ∧ walk c root σ = some a

variable {c c' : ν → ι → Option ν} {root : ν} {d : ℕ}

/-- Stores that agree on the inner nodes of a tree have the same paths. -/
theorem walk_congr (h : ∀ σ : List ι, σ.length < d → ∀ a, walk c root σ = some a →
    ∀ i, c' a i = c a i) :
    ∀ σ : List ι, σ.length ≤ d → walk c' root σ = walk c root σ := by
  intro σ
  induction σ with
  | nil => intro _; rfl
  | cons i σ ih =>
    intro hd
    rw [List.length_cons] at hd
    rw [walk_cons, walk_cons, ih (by omega)]
    cases hw : walk c root σ with
    | none => rfl
    | some a => exact h σ (by omega) a hw i

/-! ## Subtrees -/

theorem walk_append (c : ν → ι → Option ν) (root : ν) (σ τ : List ι) :
    walk c root (σ ++ τ) = (walk c root τ).bind fun a => walk c a σ := by
  induction σ with
  | nil =>
    rw [List.nil_append]
    exact (Option.bind_fun_some _).symm
  | cons i σ ih => rw [List.cons_append, walk_cons, ih, Option.bind_assoc]; rfl

theorem walk_concat {a b : ν} {i : ι} (hb : c a i = some b) (σ : List ι) :
    walk c a (σ ++ [i]) = walk c b σ := by
  rw [walk_append, walk_cons, walk_nil, Option.bind_some, hb, Option.bind_some]

/-- A tree is its root and the trees of its children. -/
theorem inTree_succ {a w : ν} : InTree c a (d + 1) w ↔
    w = a ∨ ∃ i b, c a i = some b ∧ InTree c b d w := by
  constructor
  · rintro ⟨σ, hσ, hw⟩
    rcases List.eq_nil_or_concat σ with rfl | ⟨τ, i, rfl⟩
    · exact Or.inl (Option.some.inj hw).symm
    · right
      rw [List.concat_eq_append] at hσ hw
      cases hb : c a i with
      | none =>
        rw [walk_append, walk_cons, walk_nil, Option.bind_some, hb] at hw
        cases hw
      | some b =>
        rw [walk_concat hb] at hw
        rw [List.length_append, List.length_singleton] at hσ
        exact ⟨i, b, hb, τ, Nat.le_of_succ_le_succ hσ, hw⟩
  · rintro (rfl | ⟨i, b, hb, σ, hσ, hw⟩)
    · exact ⟨[], Nat.zero_le _, rfl⟩
    · refine ⟨σ ++ [i], ?_, (walk_concat hb σ).trans hw⟩
      rw [List.length_append, List.length_singleton]
      exact Nat.succ_le_succ hσ

theorem inTree_zero {a w : ν} : InTree c a 0 w ↔ w = a := by
  constructor
  · rintro ⟨σ, hσ, hw⟩
    obtain rfl := List.eq_nil_of_length_eq_zero (Nat.le_zero.1 hσ)
    exact (Option.some.inj hw).symm
  · rintro rfl
    exact ⟨[], le_rfl, rfl⟩

theorem NoAlias.child {a b : ν} {i : ι} (h : NoAlias c a (d + 1)) (hb : c a i = some b) :
    NoAlias c b d := by
  intro σ τ hσ hτ w hw hw'
  have hpath := h (σ ++ [i]) (τ ++ [i]) (by simpa using hσ) (by simpa using hτ) w
    ((walk_concat hb σ).trans hw) ((walk_concat hb τ).trans hw')
  exact List.append_cancel_right hpath

/-- No child's tree holds the root. -/
theorem NoAlias.child_ne {a b w : ν} {i : ι} (h : NoAlias c a (d + 1)) (hb : c a i = some b)
    (hw : InTree c b d w) : w ≠ a := by
  rintro rfl
  obtain ⟨σ, hσ, hw⟩ := hw
  have hpath := h (σ ++ [i]) [] (by simpa using hσ) (Nat.zero_le _) w
    ((walk_concat hb σ).trans hw) rfl
  exact absurd hpath (by simp)

/-- The trees of two children share no node. -/
theorem NoAlias.disjoint {a b b' w : ν} {i j : ι} (h : NoAlias c a (d + 1)) (hb : c a i = some b)
    (hb' : c a j = some b') (hij : i ≠ j) (hw : InTree c b d w) : ¬InTree c b' d w := by
  rintro ⟨τ, hτ, hw'⟩
  obtain ⟨σ, hσ, hw⟩ := hw
  have hpath := h (σ ++ [i]) (τ ++ [j]) (by simpa using hσ) (by simpa using hτ) w
    ((walk_concat hb σ).trans hw) ((walk_concat hb' τ).trans hw')
  have := congrArg List.getLast? hpath
  simp only [List.getLast?_append, List.getLast?_singleton, Option.some_or] at this
  exact hij (Option.some.inj this)

/-- One new link from an inner node to a fresh leaf adds one path and keeps all others. -/
structure Link (c c' : ν → ι → Option ν) (root : ν) (d : ℕ) (π : List ι) (t p : ν) (k : ι) :
    Prop where
  short : π.length < d
  source : walk c root π = some t
  absent : c t k = none
  fresh : ¬ InTree c root d p
  linked : c' t k = some p
  leaf : ∀ i, c' p i = none
  elsewhere : ∀ σ : List ι, σ.length < d → ∀ a, walk c root σ = some a →
    ∀ i, (a ≠ t ∨ i ≠ k) → c' a i = c a i

variable [DecidableEq ι] {π : List ι} {t p : ν} {k : ι}

theorem Link.walk_eq (hl : Link c c' root d π t p k) (hna : NoAlias c root d) :
    ∀ σ : List ι, σ.length ≤ d →
      walk c' root σ = if σ = k :: π then some p else walk c root σ := by
  intro σ
  induction σ with
  | nil => intro _; rfl
  | cons i σ ih =>
    intro hd
    rw [List.length_cons] at hd
    rw [walk_cons, walk_cons, ih (by omega)]
    by_cases hσ : σ = k :: π
    · -- below the new leaf there is nothing, before or after
      have hne : i :: σ ≠ k :: π := fun he => by
        have := congrArg List.length (List.cons.inj he).2
        rw [hσ, List.length_cons] at this
        omega
      rw [if_pos hσ, if_neg hne, Option.bind_some, hl.leaf, hσ, walk_cons, hl.source,
        Option.bind_some, hl.absent, Option.bind_none]
    · rw [if_neg hσ]
      cases hw : walk c root σ with
      | none =>
        have hne : i :: σ ≠ k :: π := fun he => by
          rw [(List.cons.inj he).2, hl.source] at hw
          cases hw
        simp [hne]
      | some a =>
        simp only [Option.bind_some]
        by_cases hσπ : σ = π
        · subst hσπ
          rw [hl.source] at hw
          cases hw
          by_cases hik : i = k
          · rw [hik, if_pos rfl, hl.linked]
          · rw [if_neg fun he => hik (List.cons.inj he).1]
            exact hl.elsewhere σ (by omega) t hl.source i (Or.inr hik)
        · have hat : a ≠ t := fun he =>
            hσπ (hna σ π (by omega) hl.short.le a hw (he ▸ hl.source))
          rw [if_neg fun he => hσπ (List.cons.inj he).2]
          exact hl.elsewhere σ (by omega) a hw i (Or.inl hat)

theorem Link.inTree_iff (hl : Link c c' root d π t p k) (hna : NoAlias c root d) {a : ν} :
    InTree c' root d a ↔ a = p ∨ InTree c root d a := by
  constructor
  · rintro ⟨σ, hd, hw⟩
    rw [hl.walk_eq hna σ hd] at hw
    split at hw
    · exact Or.inl (Option.some.inj hw).symm
    · exact Or.inr ⟨σ, hd, hw⟩
  · rintro (rfl | ⟨σ, hd, hw⟩)
    · have hlen : (k :: π).length ≤ d := hl.short
      exact ⟨k :: π, hlen, by rw [hl.walk_eq hna _ hlen, if_pos rfl]⟩
    · refine ⟨σ, hd, ?_⟩
      rw [hl.walk_eq hna σ hd, if_neg, hw]
      rintro rfl
      rw [walk_cons, hl.source, Option.bind_some, hl.absent] at hw
      cases hw

theorem Link.noAlias (hl : Link c c' root d π t p k) (hna : NoAlias c root d) :
    NoAlias c' root d := by
  intro σ τ hσ hτ a hwσ hwτ
  rw [hl.walk_eq hna σ hσ] at hwσ
  rw [hl.walk_eq hna τ hτ] at hwτ
  split at hwσ <;> split at hwτ
  · rename_i h1 h2; rw [h1, h2]
  · cases hwσ; exact absurd ⟨τ, hτ, hwτ⟩ hl.fresh
  · cases hwτ; exact absurd ⟨σ, hσ, hwσ⟩ hl.fresh
  · exact hna σ τ hσ hτ a hwσ hwτ

end PointerTree
