import Mathlib

/-! # Doubly linked lists closed through a sentinel

A null-terminated list is one whose sentinel is the null pointer, with the head as its
successor. The links are functions, so they may be fields of a record or words of a memory. -/
namespace LinkedRing

variable {β : Type*}

/-- Following `next` from the sentinel `s` visits `l` and comes back, and `prev` undoes it. -/
structure Linked (next prev : β → β) (s : β) (l : List β) : Prop where
  nodup : (s :: l).Nodup
  linked : (s :: (l ++ [s])).IsChain fun a b => next a = b ∧ prev b = a

/-- The loop that follows `next` until `stop` holds, `fuel` steps at most. -/
def search (next : β → β) (stop : β → Bool) : ℕ → β → Option β
  | 0, _ => none
  | n + 1, a => if stop a then some a else search next stop n (next a)

variable {next prev next' prev' : β → β} {s a b m : β} {xs ys l : List β}

theorem search_chain {stop : β → Bool} (hl : (a :: l).IsChain fun c d => next c = d)
    {r : β} (hr : (a :: l).find? stop = some r) {fuel : ℕ} (hf : l.length < fuel) :
    search next stop fuel a = some r := by
  induction l generalizing a fuel with
  | nil =>
    obtain ⟨n, rfl⟩ := Nat.exists_eq_succ_of_ne_zero (Nat.ne_of_gt hf)
    obtain ⟨rfl, hs⟩ : a = r ∧ stop a = true := by
      have := List.find?_some hr
      have hmem := List.mem_of_find?_eq_some hr
      obtain rfl := List.mem_singleton.1 hmem
      exact ⟨rfl, this⟩
    rw [search, if_pos hs]
  | cons c l ih =>
    obtain ⟨n, rfl⟩ := Nat.exists_eq_succ_of_ne_zero (Nat.ne_of_gt (Nat.zero_lt_of_lt hf))
    obtain ⟨hc, hl⟩ := List.isChain_cons_cons.1 hl
    cases hs : stop a with
    | true =>
      rw [List.find?_cons_of_pos hs] at hr
      rw [search, if_pos hs, hr]
    | false =>
      rw [List.find?_cons_of_neg (by simp [hs])] at hr
      rw [search, hs, if_neg Bool.false_ne_true, hc]
      exact ih hl hr (Nat.lt_of_succ_lt_succ hf)

theorem Linked.split (h : Linked next prev s (xs ++ ys)) :
    (s :: xs).IsChain (fun c d => next c = d ∧ prev d = c) ∧
      (ys ++ [s]).IsChain (fun c d => next c = d ∧ prev d = c) ∧
      ∀ a ∈ (s :: xs).getLast?, ∀ b ∈ (ys ++ [s]).head?, next a = b ∧ prev b = a := by
  have := h.linked
  rw [List.append_assoc, ← List.cons_append] at this
  exact List.isChain_append.1 this

/-- A search from the first node of `ys`, in a list that ends with `ys`. -/
theorem Linked.search_suffix (xs ys : List β) (h : Linked next prev s (xs ++ ys))
    (hb : (ys ++ [s]).head? = some b)
    {stop : β → Bool} {r : β} (hr : (ys ++ [s]).find? stop = some r) {fuel : ℕ}
    (hf : ys.length < fuel) : search next stop fuel b = some r := by
  have hl : (ys ++ [s]).IsChain fun c d => next c = d := h.split.2.1.imp fun _ _ h => h.1
  obtain ⟨t, ht⟩ := List.head?_eq_some_iff.1 hb
  rw [ht] at hl hr
  have hlen := congrArg List.length ht
  simp only [List.length_append, List.length_cons, List.length_nil] at hlen
  exact search_chain hl hr (by omega)

theorem Linked.congr (h : Linked next prev s l) (hn : ∀ c ∈ s :: l, next' c = next c)
    (hp : ∀ c ∈ s :: l, prev' c = prev c) : Linked next' prev' s l := by
  refine ⟨h.nodup, List.IsChain.imp_of_mem_imp ?_ h.linked⟩
  intro c d hc hd hcd
  have hmem {e : β} (he : e ∈ s :: (l ++ [s])) : e ∈ s :: l := by
    simp only [List.mem_cons, List.mem_append, List.not_mem_nil, or_false] at he ⊢
    tauto
  rw [hn c (hmem hc), hp d (hmem hd)]
  exact hcd

theorem chain_unique (hl : (a :: (xs ++ [s])).IsChain fun c d => next c = d)
    (hl' : (a :: (ys ++ [s])).IsChain fun c d => next c = d) (hs : s ∉ xs) (hs' : s ∉ ys) :
    xs = ys := by
  induction xs generalizing a ys with
  | nil =>
    cases ys with
    | nil => rfl
    | cons y ys =>
      have h := (List.isChain_cons_cons.1 hl).1
      have h' := (List.isChain_cons_cons.1 hl').1
      exact absurd (h.symm.trans h') fun e => hs' (e ▸ List.mem_cons_self)
  | cons x xs ih =>
    have h := List.isChain_cons_cons.1 hl
    cases ys with
    | nil =>
      have h' := (List.isChain_cons_cons.1 hl').1
      exact absurd (h'.symm.trans h.1) fun e => hs (e ▸ List.mem_cons_self)
    | cons y ys =>
      have h' := List.isChain_cons_cons.1 hl'
      obtain rfl : x = y := h.1.symm.trans h'.1
      rw [ih h.2 h'.2 (fun hm => hs (List.mem_cons_of_mem _ hm))
        fun hm => hs' (List.mem_cons_of_mem _ hm)]

/-- The links determine the list. -/
theorem Linked.unique (h : Linked next prev s xs) (h' : Linked next prev s ys) : xs = ys :=
  chain_unique (h.linked.imp fun _ _ hcd => hcd.1) (h'.linked.imp fun _ _ hcd => hcd.1)
    (List.nodup_cons.1 h.nodup).1 (List.nodup_cons.1 h'.nodup).1

/-- The last node before a place in the ring and the first one after it. -/
theorem Linked.next_eq (xs ys : List β) (h : Linked next prev s (xs ++ ys))
    (ha : (s :: xs).getLast? = some a)
    (hb : (ys ++ [s]).head? = some b) : next a = b ∧ prev b = a :=
  h.split.2.2 a ha b hb

/-- A node of a first part that is not its last has its successor in that part. -/
theorem Linked.next_mem (h : Linked next prev s (xs ++ ys)) (ha : a ∈ (s :: xs).dropLast) :
    next a ∈ xs := by
  obtain ⟨us, vs, hd⟩ := List.append_of_mem ha
  obtain ⟨b, ws, hws⟩ : ∃ b ws, vs ++ [(s :: xs).getLast (List.cons_ne_nil s xs)] = b :: ws :=
    List.exists_cons_of_ne_nil (by simp)
  have hsplit : s :: xs = us ++ a :: b :: ws := by
    rw [← hws, ← List.cons_append, ← List.append_assoc, ← hd, List.dropLast_append_getLast]
  have hchain := h.split.1
  rw [hsplit] at hchain
  have hab := (List.isChain_cons_cons.1 (List.isChain_append.1 hchain).2.1).1
  rw [hab.1]
  cases us with
  | nil =>
    rw [List.nil_append, List.cons.injEq] at hsplit
    simp [hsplit.2]
  | cons u us =>
    rw [List.cons_append, List.cons.injEq] at hsplit
    simp [hsplit.2]

/-- The search from the sentinel for the last node of a first part, by what comes next. -/
theorem Linked.search_last (h : Linked next prev s (xs ++ ys)) (stop : β → Bool)
    (hgo : ∀ c ∈ xs, stop c = false) (hstop : ∀ c ∈ ys ++ [s], stop c = true)
    (ha : (s :: xs).getLast? = some a) {fuel : ℕ} (hf : (xs ++ ys).length < fuel) :
    search next (fun c => stop (next c)) fuel s = some a := by
  have hchain : (s :: (xs ++ ys)).IsChain fun c d => next c = d := by
    have := h.linked.imp fun _ _ hcd => hcd.1
    rw [← List.cons_append] at this
    exact (List.isChain_append.1 this).1
  refine search_chain hchain ?_ hf
  rw [← List.cons_append, List.find?_append, List.find?_eq_some_iff_append.2]
  · rfl
  · refine ⟨?_, (s :: xs).dropLast, [], ?_, ?_⟩
    · obtain ⟨b, hb⟩ : ∃ b, (ys ++ [s]).head? = some b := by cases ys <;> simp
      rw [(h.next_eq xs ys ha hb).1]
      exact hstop b (List.mem_of_head? hb)
    · obtain ⟨l, hl⟩ := List.getLast?_eq_some_iff.1 ha
      rw [hl, List.dropLast_concat]
    · intro c hc
      rw [hgo _ (h.next_mem hc)]
      rfl

theorem head_notin (hnd : (s :: (xs ++ ys)).Nodup) (hb : (ys ++ [s]).head? = some b) :
    b ∉ xs ∧ b ∉ (ys ++ [s]).tail := by
  cases ys with
  | nil =>
    obtain rfl : s = b := by simpa using hb
    simp only [List.append_nil, List.nodup_cons] at hnd
    exact ⟨hnd.1, by simp⟩
  | cons y ys =>
    obtain rfl : y = b := by simpa using hb
    simp only [List.nodup_cons, List.mem_append, List.mem_cons, List.nodup_append] at hnd
    obtain ⟨hs, -, ⟨hy, -⟩, hxy⟩ := hnd
    refine ⟨fun hx => hxy y hx y (Or.inl rfl) rfl, ?_⟩
    simp only [List.cons_append, List.tail_cons, List.mem_append, List.mem_singleton]
    rintro (h | h)
    · exact hy h
    · exact hs (Or.inr (Or.inl h.symm))

/-- Links away from the place that changes stay: in a chain none of whose pairs ends in `b`
or starts in `a`, the new links are the old ones. -/
theorem chain_frame {ok : β → Prop} (hl : l.IsChain fun c d => next c = d ∧ prev d = c)
    (hok : ∀ c ∈ l, ok c) (hb : b ∉ l.tail) (ha : ∀ d ∈ l.tail, next a ≠ d)
    (hn : ∀ c, ok c → c ≠ a → next' c = next c)
    (hp : ∀ c, ok c → c ≠ b → prev' c = prev c) :
    l.IsChain fun c d => next' c = d ∧ prev' d = c := by
  refine List.IsChain.imp_of_mem_tail_imp ?_ hl
  intro c d hc hd hcd
  have hca : c ≠ a := by
    rintro rfl
    exact ha d hd hcd.1
  have hdb : d ≠ b := by
    rintro rfl
    exact hb hd
  rw [hn c (hok c hc) hca, hp d (hok d (List.mem_of_mem_tail hd)) hdb]
  exact hcd

/-- The chains on both sides of the place keep their links. -/
theorem sides_frame (hl : (s :: xs).IsChain fun c d => next c = d ∧ prev d = c)
    (hr : (ys ++ [s]).IsChain fun c d => next c = d ∧ prev d = c)
    (hbx : b ∉ xs) (hby : b ∉ (ys ++ [s]).tail)
    (hax : next a ∉ xs) (hay : next a ∉ (ys ++ [s]).tail)
    (hn : ∀ c ∈ s :: (xs ++ ys), c ≠ a → next' c = next c)
    (hp : ∀ c ∈ s :: (xs ++ ys), c ≠ b → prev' c = prev c) :
    ((s :: xs).IsChain fun c d => next' c = d ∧ prev' d = c) ∧
      (ys ++ [s]).IsChain fun c d => next' c = d ∧ prev' d = c := by
  constructor
  · refine chain_frame hl (fun c hc => ?_) hbx (fun d hd he => hax (he ▸ hd)) hn hp
    simp only [List.mem_cons, List.mem_append] at hc ⊢
    exact hc.imp_right Or.inl
  · refine chain_frame hr (fun c hc => ?_) hby (fun d hd he => hay (he ▸ hd)) hn hp
    simp only [List.mem_append, List.mem_cons, List.not_mem_nil, or_false] at hc ⊢
    exact hc.symm.imp_right Or.inr

/-- A new node linked in between the neighbours `a` and `b`. -/
theorem Linked.insert (h : Linked next prev s (xs ++ ys)) (hm : m ∉ s :: (xs ++ ys))
    (ha : (s :: xs).getLast? = some a) (hb : (ys ++ [s]).head? = some b)
    (hna : next' a = m) (hnm : next' m = b) (hpb : prev' b = m) (hpm : prev' m = a)
    (hn : ∀ c ∈ s :: (xs ++ ys), c ≠ a → next' c = next c)
    (hp : ∀ c ∈ s :: (xs ++ ys), c ≠ b → prev' c = prev c) :
    Linked next' prev' s (xs ++ m :: ys) := by
  obtain ⟨hl, hr, -⟩ := h.split
  obtain ⟨hbx, hby⟩ := head_notin h.nodup hb
  have hab : next a = b := (h.next_eq xs ys ha hb).1
  obtain ⟨hl', hr'⟩ := sides_frame hl hr hbx hby (hab ▸ hbx) (hab ▸ hby) hn hp
  constructor
  · have hnd := (List.nodup_cons.2 ⟨hm, h.nodup⟩)
    refine List.Perm.nodup ?_ hnd
    exact (List.Perm.swap _ _ _).trans (List.Perm.cons s List.perm_middle.symm)
  · rw [List.append_assoc, ← List.cons_append, List.cons_append]
    refine List.isChain_append.2 ⟨hl', List.isChain_cons.2 ⟨?_, hr'⟩, ?_⟩
    · intro y hy
      obtain rfl : b = y := Option.some.inj (hb.symm.trans hy)
      exact ⟨hnm, hpb⟩
    · intro x hx y hy
      obtain rfl : a = x := Option.some.inj (ha.symm.trans hx)
      obtain rfl : m = y := by simpa using hy
      exact ⟨hna, hpm⟩

/-- A node unlinked from between its neighbours `a` and `b`. -/
theorem Linked.remove (h : Linked next prev s (xs ++ m :: ys))
    (ha : (s :: xs).getLast? = some a) (hb : (ys ++ [s]).head? = some b)
    (hna : next' a = b) (hpb : prev' b = a)
    (hn : ∀ c ∈ s :: (xs ++ ys), c ≠ a → next' c = next c)
    (hp : ∀ c ∈ s :: (xs ++ ys), c ≠ b → prev' c = prev c) :
    Linked next' prev' s (xs ++ ys) := by
  obtain ⟨hl, hr, -⟩ := h.split
  have hr := hr.tail
  rw [List.cons_append, List.tail_cons] at hr
  have ham : next a = m := (h.next_eq xs (m :: ys) ha rfl).1
  have hnd : (m :: s :: (xs ++ ys)).Nodup := by
    refine List.Perm.nodup ?_ h.nodup
    exact (List.Perm.cons s List.perm_middle).trans (List.Perm.swap _ _ _)
  obtain ⟨hm, hnd⟩ := List.nodup_cons.1 hnd
  simp only [List.mem_cons, List.mem_append, not_or] at hm
  obtain ⟨hms, hmx, hmy⟩ := hm
  obtain ⟨hbx, hby⟩ := head_notin hnd hb
  have hmt : m ∉ (ys ++ [s]).tail := by
    intro ht
    have hmem := List.mem_of_mem_tail ht
    simp only [List.mem_append, List.mem_singleton] at hmem
    exact hmem.elim hmy hms
  obtain ⟨hl', hr'⟩ := sides_frame hl hr hbx hby (ham ▸ hmx) (ham ▸ hmt) hn hp
  constructor
  · exact hnd
  · rw [List.append_assoc, ← List.cons_append]
    refine List.isChain_append.2 ⟨hl', hr', ?_⟩
    intro x hx y hy
    obtain rfl : a = x := Option.some.inj (ha.symm.trans hx)
    obtain rfl : b = y := Option.some.inj (hb.symm.trans hy)
    exact ⟨hna, hpb⟩

end LinkedRing
