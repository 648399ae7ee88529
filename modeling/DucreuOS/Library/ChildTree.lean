import Mathlib

/-! # Trees of nodes with lists of children

The lists of children are a function of the node, as in a heap of records. What lies below a root,
the way to it, and what becomes of both when a child is added or taken away. -/
namespace ChildTree

variable {ν : Type*} {children children' : ν → List ν} {parent : ν → ν} {root v w c x : ν}
  {vs ws : List ν}

inductive Below (children : ν → List ν) (root : ν) : ν → Prop where
  | root : Below children root root
  | child {v c : ν} : Below children root v → c ∈ children v → Below children root c

/-- The nodes from one up to the root. -/
inductive Way (children : ν → List ν) (root : ν) : ν → List ν → Prop where
  | root : Way children root root [root]
  | child {v c : ν} {vs : List ν} : Way children root v vs → c ∈ children v →
    Way children root c (c :: vs)

/-- The links to the parents agree with the lists of children. -/
structure Linked (children : ν → List ν) (parent : ν → ν) (root : ν) : Prop where
  parent (v c : ν) : Below children root v → c ∈ children v → parent c = v
  root (v : ν) : Below children root v → root ∉ children v

theorem Below.cases_child (h : Below children root x) :
    x = root ∨ ∃ v, Below children root v ∧ x ∈ children v := by
  cases h with
  | root => exact Or.inl rfl
  | child hv hc => exact Or.inr ⟨_, hv, hc⟩

theorem Way.toBelow (h : Way children root v vs) : Below children root v := by
  induction h with
  | root => exact .root
  | child _ hc ih => exact .child ih hc

theorem Way.head (h : Way children root v vs) : ∃ ws, vs = v :: ws := by
  cases h with
  | root => exact ⟨[], rfl⟩
  | child => exact ⟨_, rfl⟩

/-! ## The way is unique -/

theorem Way.unique (hl : Linked children parent root) (h : Way children root v vs)
    (h' : Way children root v ws) : vs = ws := by
  induction h generalizing ws with
  | root =>
    cases h' with
    | root => rfl
    | child hv hc => exact absurd hc (hl.root _ hv.toBelow)
  | child hv hc ih =>
    cases h' with
    | root => exact absurd hc (hl.root _ hv.toBelow)
    | child hv' hc' =>
      have hsame := (hl.parent _ _ hv.toBelow hc).symm.trans (hl.parent _ _ hv'.toBelow hc')
      subst hsame
      rw [ih hv']

/-- A node on the way has a way that is no longer. -/
theorem Way.of_mem (h : Way children root v vs) (hx : x ∈ vs) :
    ∃ ws, Way children root x ws ∧ ws.length ≤ vs.length := by
  induction h with
  | root =>
    obtain rfl := List.mem_singleton.mp hx
    exact ⟨_, .root, le_rfl⟩
  | @child v c vs hv hc ih =>
    rcases List.mem_cons.mp hx with rfl | hx
    · exact ⟨_, .child hv hc, le_rfl⟩
    · obtain ⟨ws, hws, hle⟩ := ih hx
      exact ⟨ws, hws, hle.trans (Nat.le_succ _)⟩

theorem Way.mem_below (h : Way children root v vs) (hx : x ∈ vs) : Below children root x := by
  obtain ⟨ws, hws, -⟩ := h.of_mem hx
  exact hws.toBelow

/-- No child of a node lies on the way to it. -/
theorem Way.child_notMem (hl : Linked children parent root) (h : Way children root v vs)
    (hc : c ∈ children v) : c ∉ vs := by
  intro hmem
  obtain ⟨ws, hws, hle⟩ := h.of_mem hmem
  rw [hws.unique hl (.child h hc), List.length_cons] at hle
  omega

/-! ## A child is added -/

theorem Below.mono (h : Below children root x)
    (hsub : ∀ v, Below children root v → children v ⊆ children' v) : Below children' root x := by
  induction h with
  | root => exact .root
  | child hv hc ih => exact .child ih (hsub _ hv hc)

theorem Way.mono (h : Way children root x vs)
    (hsub : ∀ v, Below children root v → children v ⊆ children' v) : Way children' root x vs := by
  induction h with
  | root => exact .root
  | child hv hc ih => exact .child ih (hsub _ hv.toBelow hc)

/-- `c` is a fresh node, the first child of `w`. -/
structure Attached (children : ν → List ν) (root w c : ν) (children' : ν → List ν) : Prop where
  old (v : ν) : v ≠ w → v ≠ c → children' v = children v
  first : children' w = c :: children w
  leaf : children' c = []
  parent : Below children root w
  fresh : ¬ Below children root c

theorem Attached.subset (h : Attached children root w c children') (v : ν)
    (hv : Below children root v) : children v ⊆ children' v := by
  by_cases hvw : v = w
  · subst hvw
    rw [h.first]
    exact List.subset_cons_self _ _
  · rw [h.old v hvw fun heq => h.fresh (heq ▸ hv)]
    exact List.Subset.refl _

theorem Attached.below_iff (h : Attached children root w c children') :
    Below children' root x ↔ Below children root x ∨ x = c := by
  constructor
  · intro hx
    induction hx with
    | root => exact Or.inl .root
    | @child v y _ hy ih =>
      rcases ih with hv | rfl
      · by_cases hvw : v = w
        · subst hvw
          rw [h.first] at hy
          rcases List.mem_cons.mp hy with rfl | hy
          · exact Or.inr rfl
          · exact Or.inl (.child hv hy)
        · rw [h.old v hvw fun heq => h.fresh (heq ▸ hv)] at hy
          exact Or.inl (.child hv hy)
      · rw [h.leaf] at hy
        cases hy
  · rintro (hx | rfl)
    · exact hx.mono h.subset
    · exact .child (h.parent.mono h.subset) (h.first ▸ List.mem_cons_self)

/-! ## A child is taken away -/

/-- The way to a node stays when a node that is not on it is taken away. -/
theorem Way.detach (h : Way children root x vs)
    (hkeep : ∀ v y, y ∈ children v → y ≠ c → y ∈ children' v) (hc : c ∉ vs) :
    Way children' root x vs := by
  induction h with
  | root => exact .root
  | @child v y vs hv hy ih =>
    rw [List.mem_cons, not_or] at hc
    exact .child (ih hc.2) (hkeep v y hy (Ne.symm hc.1))

end ChildTree
