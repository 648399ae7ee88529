import Mathlib

/-! # Lists linked in one direction

A list ends at the null link. The links are a function of the node, so they may be a field of a
record or a byte of a memory. -/
namespace ForwardList

variable {β : Type*}

/-- From the link `a` on, the nodes are those of `l` in this order. -/
def Follows (next : β → Option β) : Option β → List β → Prop
  | a, [] => a = none
  | a, x :: l => a = some x ∧ Follows next (next x) l

/-- The loop over the nodes that leaves at the first where `stop` holds, `fuel` nodes at most. -/
def find (next : β → Option β) (stop : β → Bool) : ℕ → Option β → Option (Option β)
  | _, none => some none
  | 0, some _ => none
  | n + 1, some a => if stop a then some (some a) else find next stop n (next a)

variable {next next' : β → Option β} {stop : β → Bool} {a : Option β} {l l' : List β} {m : β}

theorem Follows.head_eq (h : Follows next a l) : a = l.head? := by
  cases l with
  | nil => exact h
  | cons x l => exact h.1

/-- The links determine the list. -/
theorem Follows.unique (h : Follows next a l) (h' : Follows next a l') : l = l' := by
  induction l generalizing a l' with
  | nil =>
    cases l' with
    | nil => rfl
    | cons y l' => exact absurd (Eq.symm h |>.trans h'.1) (by simp)
  | cons x l ih =>
    cases l' with
    | nil => exact absurd (Eq.symm h' |>.trans h.1) (by simp)
    | cons y l' =>
      obtain rfl : x = y := Option.some.inj (h.1.symm.trans h'.1)
      rw [ih h.2 h'.2]

/-- A list that ends has each of its nodes once. -/
theorem Follows.nodup (h : Follows next a l) : l.Nodup := by
  induction l generalizing a with
  | nil => exact List.nodup_nil
  | cons x l ih =>
    refine List.nodup_cons.2 ⟨fun hx => ?_, ih h.2⟩
    obtain ⟨us, vs, rfl⟩ := List.append_of_mem hx
    have hsuffix (us : List β) {b : Option β} (hb : Follows next b (us ++ x :: vs)) :
        Follows next (some x) (x :: vs) := by
      induction us generalizing b with
      | nil => exact ⟨rfl, hb.2⟩
      | cons u us ih => exact ih hb.2
    have hwhole : Follows next (some x) (x :: (us ++ x :: vs)) := ⟨rfl, h.2⟩
    have hlen := congrArg List.length ((hsuffix us h.2).unique hwhole)
    simp only [List.length_cons, List.length_append] at hlen
    omega

theorem Follows.congr (h : Follows next a l) (hn : ∀ c ∈ l, next' c = next c) :
    Follows next' a l := by
  induction l generalizing a with
  | nil => exact h
  | cons x l ih =>
    refine ⟨h.1, ?_⟩
    rw [hn x List.mem_cons_self]
    exact ih h.2 fun c hc => hn c (List.mem_cons_of_mem x hc)

/-- A node linked in before the first. -/
theorem Follows.prepend (h : Follows next a l) (hm : next' m = a)
    (hn : ∀ c ∈ l, next' c = next c) : Follows next' (some m) (m :: l) :=
  ⟨rfl, hm ▸ h.congr hn⟩

theorem Follows.find_eq (h : Follows next a l) {fuel : ℕ} (hf : l.length ≤ fuel) :
    find next stop fuel a = some (l.find? stop) := by
  induction l generalizing a fuel with
  | nil =>
    obtain rfl : a = none := h
    cases fuel <;> rfl
  | cons x l ih =>
    obtain ⟨rfl, hl⟩ := h
    obtain ⟨n, rfl⟩ := Nat.exists_eq_succ_of_ne_zero (Nat.ne_of_gt (Nat.zero_lt_of_lt hf))
    cases hs : stop x with
    | true => simp only [find, hs, if_true, List.find?_cons_of_pos]
    | false =>
      simp only [find, hs, Bool.false_eq_true, if_false, not_false_eq_true,
        List.find?_cons_of_neg]
      exact ih hl (Nat.le_of_succ_le_succ hf)

end ForwardList
