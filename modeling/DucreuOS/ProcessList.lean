import DucreuOS.Library.LinkedRing
import DucreuOS.Library.Transition

/-! # Process lists

`process_insert`, `process_remove` and `process_remove_lowest` on nodes of the kernel heap.
A loop that would not end within the number of allocated nodes, and the dereference of a null
pointer, have no result. The list mutexes are not modelled. -/
namespace ProcessList

open LinkedRing Transition

abbrev Word := BitVec 64

/-- `process_llist_node_t`; `none` is `NULL`. -/
@[ext] structure Node (π : Type*) where
  p : π
  next : Option ℕ
  prev : Option ℕ

/-- The heap nodes and which of them are allocated. -/
structure Nodes (π : Type*) where
  node : ℕ → Node π
  live : Finset ℕ

/-- `kmalloc` of a node: any node not in use. -/
abbrev Kmalloc := {f : Finset ℕ → ℕ // ∀ live, f live ∉ live}

variable {π : Type*}

namespace Nodes

def setP (s : Nodes π) (a : ℕ) (p : π) : Nodes π :=
  { s with node := Function.update s.node a { s.node a with p := p } }

def setNext (s : Nodes π) (a : ℕ) (l : Option ℕ) : Nodes π :=
  { s with node := Function.update s.node a { s.node a with next := l } }

def setPrev (s : Nodes π) (a : ℕ) (l : Option ℕ) : Nodes π :=
  { s with node := Function.update s.node a { s.node a with prev := l } }

def alloc (s : Nodes π) (a : ℕ) : Nodes π := { s with live := insert a s.live }

def kfree (s : Nodes π) (a : ℕ) : Nodes π := { s with live := s.live.erase a }

/-- `l->next`, with the head as the successor of `NULL`. -/
def nextOf (s : Nodes π) (head : Option ℕ) : Option ℕ → Option ℕ
  | none => head
  | some a => (s.node a).next

def prevOf (s : Nodes π) (tail : Option ℕ) : Option ℕ → Option ℕ
  | none => tail
  | some a => (s.node a).prev

variable (s : Nodes π) (a c : ℕ) (p : π) (l : Option ℕ)

@[simp] theorem setP_p : ((s.setP a p).node c).p = if c = a then p else (s.node c).p := by
  by_cases h : c = a <;> simp [setP, h]

@[simp] theorem setP_next : ((s.setP a p).node c).next = (s.node c).next := by
  by_cases h : c = a <;> simp [setP, h]

@[simp] theorem setP_prev : ((s.setP a p).node c).prev = (s.node c).prev := by
  by_cases h : c = a <;> simp [setP, h]

@[simp] theorem setNext_p : ((s.setNext a l).node c).p = (s.node c).p := by
  by_cases h : c = a <;> simp [setNext, h]

@[simp] theorem setNext_next :
    ((s.setNext a l).node c).next = if c = a then l else (s.node c).next := by
  by_cases h : c = a <;> simp [setNext, h]

@[simp] theorem setNext_prev : ((s.setNext a l).node c).prev = (s.node c).prev := by
  by_cases h : c = a <;> simp [setNext, h]

@[simp] theorem setPrev_p : ((s.setPrev a l).node c).p = (s.node c).p := by
  by_cases h : c = a <;> simp [setPrev, h]

@[simp] theorem setPrev_next : ((s.setPrev a l).node c).next = (s.node c).next := by
  by_cases h : c = a <;> simp [setPrev, h]

@[simp] theorem setPrev_prev :
    ((s.setPrev a l).node c).prev = if c = a then l else (s.node c).prev := by
  by_cases h : c = a <;> simp [setPrev, h]

@[simp] theorem setP_live : (s.setP a p).live = s.live := rfl
@[simp] theorem setNext_live : (s.setNext a l).live = s.live := rfl
@[simp] theorem setPrev_live : (s.setPrev a l).live = s.live := rfl
@[simp] theorem alloc_live : (s.alloc a).live = insert a s.live := rfl
@[simp] theorem alloc_node : (s.alloc a).node = s.node := rfl
@[simp] theorem kfree_node : (s.kfree a).node = s.node := rfl
@[simp] theorem kfree_live : (s.kfree a).live = s.live.erase a := rfl

end Nodes

/-- `new->p->vruntime <= l->p->vruntime`, or the end of the list. -/
def atLeast (s : Nodes π) (vruntime : π → Word) (p : π) : Option ℕ → Bool
  | none => true
  | some l => vruntime p ≤ vruntime (s.node l).p

def isLast (s : Nodes π) : Option ℕ → Bool
  | none => true
  | some l => (s.node l).next.isNone

def processInsert (vruntime : π → Word) (kmalloc : Kmalloc) (s : Nodes π) (head : Option ℕ)
    (p : π) : Option (Nodes π × Option ℕ) :=
  let new := kmalloc.1 s.live
  let s := (s.alloc new).setP new p
  match head with
  | none => some ((s.setNext new none).setPrev new none, some new)
  | some start =>
    if vruntime p ≤ vruntime (s.node start).p then
      some (((s.setPrev start (some new)).setNext new (some start)).setPrev new none, some new)
    else
      match search (s.nextOf head) (atLeast s vruntime p) s.live.card (s.node start).next with
      | none => none
      | some (some l) =>
        match (s.node l).prev with
        | none => none
        | some oldprev =>
          some ((((s.setNext oldprev (some new)).setPrev l (some new)).setNext new
            (some l)).setPrev new (some oldprev), head)
      | some none =>
        match search (s.nextOf head) (isLast s) s.live.card (some start) with
        | some (some l) =>
          some (((s.setNext l (some new)).setPrev new (some l)).setNext new none, head)
        | _ => none

def isNodeOf [DecidableEq π] (s : Nodes π) (p : π) : Option ℕ → Bool
  | none => true
  | some n => (s.node n).p = p

/-- A process that is not in the list leaves it alone. -/
def processRemove [DecidableEq π] (s : Nodes π) (head : Option ℕ) (remove : π) :
    Option (Nodes π × Option ℕ) :=
  match search (s.nextOf head) (isNodeOf s remove) (s.live.card + 1) head with
  | none => none
  | some none => some (s, head)
  | some (some n) =>
    let (s, head) := match (s.node n).prev with
      | some q => (s.setNext q (s.node n).next, head)
      | none => (s, (s.node n).next)
    let s := match (s.node n).next with
      | some q => s.setPrev q (s.node n).prev
      | none => s
    some (s.kfree n, head)

def processRemoveLowest (s : Nodes π) (head : Option ℕ) : Option π × Nodes π × Option ℕ :=
  match head with
  | none => (none, s, none)
  | some start =>
    let head := (s.node start).next
    let s := match head with
      | some h => s.setPrev h none
      | none => s
    (some (s.node start).p, s.kfree start, head)

/-! ## What the nodes represent -/

/-- The nodes of `l`, from `head` on, are a well formed null-terminated list. -/
structure IsList (s : Nodes π) (head : Option ℕ) (l : List ℕ) : Prop where
  live : ∀ a ∈ l, a ∈ s.live
  ring : ∃ tail, Linked (s.nextOf head) (s.prevOf tail) none (l.map some)

/-- The processes the nodes of `l` point to. -/
def procs (s : Nodes π) (l : List ℕ) : List π := l.map fun a => (s.node a).p

@[simp] theorem procs_nil (s : Nodes π) : procs s [] = [] := rfl

@[simp] theorem procs_cons (s : Nodes π) (a : ℕ) (l : List ℕ) :
    procs s (a :: l) = (s.node a).p :: procs s l := rfl

@[simp] theorem procs_append (s : Nodes π) (l₁ l₂ : List ℕ) :
    procs s (l₁ ++ l₂) = procs s l₁ ++ procs s l₂ := List.map_append

variable {s s' : Nodes π} {head head' : Option ℕ} {xs ys l : List ℕ} {new n m : ℕ} {a b : Option ℕ}

theorem IsList.nodup (h : IsList s head l) : l.Nodup := by
  obtain ⟨tail, hr⟩ := h.ring
  exact List.Nodup.of_map some (List.nodup_cons.1 hr.nodup).2

theorem IsList.length_le (h : IsList s head l) : l.length ≤ s.live.card := by
  rw [← List.toFinset_card_of_nodup h.nodup]
  apply Finset.card_le_card
  intro a ha
  exact h.live a (List.mem_toFinset.1 ha)

/-- The node in front of a place is one of the nodes there, if it is not the head. -/
theorem ne_last {a : Option ℕ} {c : ℕ} (ha : (none :: xs.map some).getLast? = some a)
    (hc : c ∉ xs) : some c ≠ a := by
  rintro rfl
  have hmem := List.mem_of_getLast? ha
  simp only [List.mem_cons, reduceCtorEq, false_or, List.mem_map, Option.some.injEq,
    exists_eq_right] at hmem
  exact hc hmem

theorem ne_first {b : Option ℕ} {c : ℕ} (hb : (ys.map some ++ [none]).head? = some b)
    (hc : c ∉ ys) : some c ≠ b := by
  rintro rfl
  have hmem := List.mem_of_head? hb
  simp only [List.mem_append, List.mem_map, Option.some.injEq, exists_eq_right,
    List.mem_singleton, reduceCtorEq, or_false] at hmem
  exact hc hmem

/-- Linking a new node in between `a` and `b`. -/
theorem IsList.link (h : IsList s head (xs ++ ys)) (hnew : new ∉ s.live)
    (hlive : s'.live = insert new s.live)
    (ha : (none :: xs.map some).getLast? = some a) (hb : (ys.map some ++ [none]).head? = some b)
    (hnext : s'.nextOf head' = Function.update (Function.update (s.nextOf head) a (some new))
      (some new) b)
    (hprev : ∀ tail, ∃ tail', s'.prevOf tail'
      = Function.update (Function.update (s.prevOf tail) b (some new)) (some new) a) :
    IsList s' head' (xs ++ new :: ys) := by
  have hnl : new ∉ xs ++ ys := fun hm => hnew (h.live new hm)
  have hmem : some new ∉ none :: (xs.map some ++ ys.map some) := by
    simpa using hnl
  have hane : a ≠ some new := by
    rintro rfl
    have := List.mem_of_getLast? ha
    simp only [List.mem_cons, List.mem_append] at hmem this
    exact hmem (this.imp_right Or.inl)
  have hbne : b ≠ some new := by
    rintro rfl
    have := List.mem_of_head? hb
    simp only [List.mem_cons, List.mem_append] at hmem this
    rcases this with hy | hy
    · exact hmem (Or.inr (Or.inr hy))
    · simp at hy
  constructor
  · intro c hc
    rw [hlive, Finset.mem_insert]
    simp only [List.mem_append, List.mem_cons] at hc
    by_cases hcn : c = new
    · exact Or.inl hcn
    · exact Or.inr (h.live c (List.mem_append.2 (hc.imp_right fun h => h.resolve_left hcn)))
  · obtain ⟨tail, hr⟩ := h.ring
    obtain ⟨tail', hp⟩ := hprev tail
    rw [List.map_append] at hr
    refine ⟨tail', ?_⟩
    rw [List.map_append, List.map_cons, hnext, hp]
    apply Linked.insert hr hmem ha hb
    · rw [Function.update_of_ne hane, Function.update_self]
    · rw [Function.update_self]
    · rw [Function.update_of_ne hbne, Function.update_self]
    · rw [Function.update_self]
    · intro c hc hca
      have hcn : c ≠ some new := fun e => hmem (e ▸ hc)
      rw [Function.update_of_ne hcn, Function.update_of_ne hca]
    · intro c hc hcb
      have hcn : c ≠ some new := fun e => hmem (e ▸ hc)
      rw [Function.update_of_ne hcn, Function.update_of_ne hcb]

/-- A list none of whose nodes changes stays a list of the same processes. -/
theorem IsList.frame (h : IsList s head l) (hnode : ∀ a ∈ l, s'.node a = s.node a)
    (hlive : ∀ a ∈ l, a ∈ s'.live) : IsList s' head l ∧ procs s' l = procs s l := by
  obtain ⟨tail, hr⟩ := h.ring
  refine ⟨⟨hlive, tail, hr.nodup, ?_⟩, List.map_congr_left fun a ha => by rw [hnode a ha]⟩
  have hmem (c : Option ℕ) (hc : c ∈ none :: (l.map some ++ [none])) :
      s'.nextOf head c = s.nextOf head c ∧ s'.prevOf tail c = s.prevOf tail c := by
    cases c with
    | none => exact ⟨rfl, rfl⟩
    | some a =>
      have ha : a ∈ l := by simpa using hc
      simp only [Nodes.nextOf, Nodes.prevOf, hnode a ha, and_self]
  refine List.IsChain.imp_of_mem_imp ?_ hr.linked
  intro c d hc hd hcd
  rw [(hmem c hc).1, (hmem d hd).2]
  exact hcd

/-- How an insertion leaves the nodes: `l'` is the list after it. -/
structure Inserted (vruntime : π → Word) (p : π) (s s' : Nodes π) (head' : Option ℕ)
    (l l' : List ℕ) : Prop where
  list : IsList s' head' l'
  procs_eq : procs s' l' = (procs s l).orderedInsert (fun p q => vruntime p ≤ vruntime q) p
  nodes (a : ℕ) : a ∈ l' → a ∈ l ∨ a ∉ s.live
  live (a : ℕ) : a ∈ s'.live ↔ a ∈ s.live ∨ a ∈ l'
  frame (a : ℕ) : a ∈ s.live → a ∉ l → s'.node a = s.node a

theorem orderedInsert_append {α : Type*} (r : α → α → Prop) [DecidableRel r] (x : α)
    (as bs : List α) (ha : ∀ y ∈ as, ¬ r x y) (hb : ∀ y ∈ bs.head?, r x y) :
    (as ++ bs).orderedInsert r x = as ++ x :: bs := by
  induction as with
  | nil =>
    cases bs with
    | nil => rfl
    | cons y bs => exact if_pos (hb y rfl)
  | cons y as ih =>
    have hy := ha y List.mem_cons_self
    rw [List.cons_append, List.orderedInsert_cons, if_neg hy,
      ih fun z hz => ha z (List.mem_cons_of_mem _ hz)]
    rfl

/-- From the links to the specification: `new` goes between `xs` and `ys`. -/
theorem IsList.inserted (xs ys : List ℕ) (h : IsList s head (xs ++ ys)) (hnew : new ∉ s.live)
    {vruntime : π → Word} {p : π}
    (hxs : ∀ c ∈ xs, ¬ vruntime p ≤ vruntime (s.node c).p)
    (hys : ∀ c ∈ ys.head?, vruntime p ≤ vruntime (s.node c).p)
    (hlive : s'.live = insert new s.live)
    (ha : (none :: xs.map some).getLast? = some a) (hb : (ys.map some ++ [none]).head? = some b)
    (hnext : s'.nextOf head' = Function.update (Function.update (s.nextOf head) a (some new))
      (some new) b)
    (hprev : ∀ tail, ∃ tail', s'.prevOf tail'
      = Function.update (Function.update (s.prevOf tail) b (some new)) (some new) a)
    (hp : ∀ c, (s'.node c).p = if c = new then p else (s.node c).p) :
    Inserted vruntime p s s' head' (xs ++ ys) (xs ++ new :: ys) := by
  have hsame (c : ℕ) (hc : c ∈ s.live) : (s'.node c).p = (s.node c).p := by
    rw [hp, if_neg]
    rintro rfl
    exact hnew hc
  constructor
  · exact h.link hnew hlive ha hb hnext hprev
  · have hx : procs s' xs = procs s xs :=
      List.map_congr_left fun c hc => hsame c (h.live c (List.mem_append_left _ hc))
    have hy : procs s' ys = procs s ys :=
      List.map_congr_left fun c hc => hsame c (h.live c (List.mem_append_right _ hc))
    have hcons : procs s' (xs ++ new :: ys) = procs s' xs ++ p :: procs s' ys := by
      simp [hp new]
    rw [hcons, hx, hy, procs_append, orderedInsert_append]
    · simpa [procs] using hxs
    · simpa [procs, Option.mem_def] using hys
  · intro c hc
    simp only [List.mem_append, List.mem_cons] at hc ⊢
    rcases hc with hc | rfl | hc
    · exact Or.inl (Or.inl hc)
    · exact Or.inr hnew
    · exact Or.inl (Or.inr hc)
  · intro c
    rw [hlive, Finset.mem_insert]
    simp only [List.mem_append, List.mem_cons]
    constructor
    · rintro (rfl | hc)
      · exact Or.inr (Or.inr (Or.inl rfl))
      · exact Or.inl hc
    · rintro (hc | hc | rfl | hc)
      · exact Or.inr hc
      · exact Or.inr (h.live c (List.mem_append_left _ hc))
      · exact Or.inl rfl
      · exact Or.inr (h.live c (List.mem_append_right _ hc))
  · intro c hc hcl
    have hcn : some c ≠ some new := by
      rintro ⟨⟩
      exact hnew hc
    have hca : some c ≠ a := ne_last ha fun hx => hcl (List.mem_append_left _ hx)
    have hcb : some c ≠ b := ne_first hb fun hy => hcl (List.mem_append_right _ hy)
    have hn := congrFun hnext (some c)
    obtain ⟨tail', htail⟩ := hprev none
    have hq := congrFun htail (some c)
    rw [Function.update_of_ne hcn, Function.update_of_ne hca] at hn
    rw [Function.update_of_ne hcn, Function.update_of_ne hcb] at hq
    exact Node.ext (hsame c hc) hn hq

theorem find?_map_some (f : Option ℕ → Bool) (hf : f none = true) (l : List ℕ) :
    (l.map some ++ [none]).find? f = some (l.find? fun c => f (some c)) := by
  induction l with
  | nil => simp [hf]
  | cons c l ih =>
    rw [List.map_cons, List.cons_append, List.find?_cons, List.find?_cons]
    cases f (some c) with
    | true => rfl
    | false => exact ih

theorem IsList.head_eq (h : IsList s head l) : head = l.head? := by
  obtain ⟨tail, hr⟩ := h.ring
  cases l with
  | nil => exact (Linked.next_eq [] [] hr rfl rfl).1
  | cons c l => exact (Linked.next_eq [] (some c :: l.map some) hr rfl rfl).1

@[simp] theorem nextOf_alloc_setP (s : Nodes π) (new : ℕ) (p : π) (head : Option ℕ) :
    ((s.alloc new).setP new p).nextOf head = s.nextOf head := by
  funext c
  cases c <;> simp [Nodes.nextOf]

theorem getLast?_nodes (xs : List ℕ) (m : ℕ) :
    (none :: (xs ++ [m]).map some).getLast? = some (some m) := by
  simp [List.getLast?_cons]

theorem IsList.next_eq (xs ys : List ℕ) (h : IsList s head (xs ++ n :: ys)) :
    (s.node n).next = ys.head? := by
  obtain ⟨tail, hr⟩ := h.ring
  have hr' : Linked (s.nextOf head) (s.prevOf tail) none ((xs ++ [n]).map some ++ ys.map some) := by
    simpa using hr
  have hb : (ys.map some ++ [none]).head? = some ys.head? := by
    cases ys <;> rfl
  exact (hr'.next_eq _ _ (getLast?_nodes xs n) hb).1

/-- The search for the place of `p`, from the second node on. -/
theorem IsList.search_place (h : IsList s head (n :: l)) (hnew : new ∉ s.live)
    (vruntime : π → Word) (p : π) :
    search (((s.alloc new).setP new p).nextOf head) (atLeast ((s.alloc new).setP new p) vruntime p)
      ((s.alloc new).setP new p).live.card (((s.alloc new).setP new p).node n).next
      = some (l.find? fun c => vruntime p ≤ vruntime (s.node c).p) := by
  obtain ⟨tail, hr⟩ := h.ring
  have hlen := h.length_le
  have hb : (l.map some ++ [none]).head? = some l.head? := by
    cases l <;> rfl
  have hnext : (s.node n).next = l.head? := IsList.next_eq [] l h
  rw [nextOf_alloc_setP, Nodes.setP_next, Nodes.alloc_node, hnext]
  apply Linked.search_suffix [some n] _ hr hb
  · rw [find?_map_some _ rfl]
    congr 1
    apply List.find?_congr
    intro c hc
    have hcn : c ≠ new := fun e => hnew (e ▸ h.live c (List.mem_cons_of_mem _ hc))
    simp [atLeast, hcn]
  · simp only [Nodes.setP_live, Nodes.alloc_live, Finset.card_insert_of_notMem hnew,
      List.length_map]
    simp only [List.length_cons] at hlen
    omega

/-- The search for the last node. -/
theorem IsList.search_last (h : IsList s (some n) (xs ++ [m])) (hnew : new ∉ s.live) (p : π) :
    search (((s.alloc new).setP new p).nextOf (some n)) (isLast ((s.alloc new).setP new p))
      ((s.alloc new).setP new p).live.card (some n) = some (some m) := by
  obtain ⟨tail, hr⟩ := h.ring
  have hlen := h.length_le
  have hlast : (s.node m).next = none := h.next_eq xs []
  have hhead : (((xs ++ [m]).map some) ++ [none]).head? = some (some n) := by
    have := h.head_eq
    cases xs <;> simpa using this.symm
  rw [nextOf_alloc_setP]
  apply Linked.search_suffix [] _ hr hhead
  · rw [find?_map_some _ rfl, Option.some_inj, List.find?_eq_some_iff_append]
    refine ⟨by simp [isLast, hlast], xs, [], rfl, ?_⟩
    intro c hc
    obtain ⟨as, bs, rfl⟩ := List.append_of_mem hc
    -- the successor is in `bs` or is `m`
    have hnext : (s.node c).next = (bs ++ [m]).head? := by
      rw [List.append_assoc] at h
      exact h.next_eq as (bs ++ [m])
    cases bs <;> simp [isLast, hnext]
  · simp only [Nodes.setP_live, Nodes.alloc_live, Finset.card_insert_of_notMem hnew,
      List.length_map]
    omega

/-- `process_insert` puts the process before the first one with at least its vruntime. -/
theorem processInsert_spec (vruntime : π → Word) (kmalloc : Kmalloc) (h : IsList s head l) (p : π) :
    ∃ s' head' l', processInsert vruntime kmalloc s head p = some (s', head') ∧
      Inserted vruntime p s s' head' l l' := by
  have hnew : kmalloc.1 s.live ∉ s.live := kmalloc.2 _
  have hhead := h.head_eq
  generalize hk : kmalloc.1 s.live = new at hnew
  unfold processInsert
  rw [hk]
  cases l with
  | nil =>
    obtain rfl : head = none := hhead
    refine ⟨_, _, _, rfl, IsList.inserted [] [] h hnew ?_ ?_ ?_ rfl rfl ?_ ?_ ?_⟩
    · simp
    · simp
    · simp
    · funext c
      cases c <;> simp [Nodes.nextOf, Function.update_apply]
    · intro tail
      refine ⟨some new, ?_⟩
      funext c
      cases c <;> simp [Nodes.prevOf, Function.update_apply]
    · simp
  | cons start l =>
    obtain rfl : head = some start := hhead
    have hstart : start ≠ new := fun e => hnew (e ▸ h.live start List.mem_cons_self)
    by_cases hle : vruntime p ≤ vruntime (s.node start).p
    · simp only [Nodes.setP_p, Nodes.alloc_node, if_neg hstart, if_pos hle]
      refine ⟨_, _, _, rfl,
        IsList.inserted [] (start :: l) h hnew ?_ ?_ ?_ rfl rfl ?_ ?_ ?_⟩
      · simp
      · simpa using hle
      · simp
      · funext c
        cases c <;> simp [Nodes.nextOf, Function.update_apply]
      · intro tail
        refine ⟨tail, ?_⟩
        funext c
        cases c <;> simp [Nodes.prevOf, Function.update_apply]
      · simp
    · have hsearch := h.search_place hnew vruntime p
      simp only [Nodes.setP_p, Nodes.alloc_node, if_neg hstart, if_neg hle]
      rw [hsearch]
      cases hf : l.find? fun c => vruntime p ≤ vruntime (s.node c).p with
      | none =>
        -- every process of the list has a lower vruntime
        have hlow := List.find?_eq_none.1 hf
        obtain ⟨xs, m, hxm⟩ := (List.eq_nil_or_concat (start :: l)).resolve_left (by simp)
        rw [List.concat_eq_append] at hxm
        have hm : m ≠ new := fun e => hnew (e ▸ h.live m (hxm ▸ List.mem_concat_self))
        have h' : IsList s (some start) (xs ++ [m] ++ []) := by
          rw [List.append_nil, ← hxm]
          exact h
        have hsl := IsList.search_last (by rwa [List.append_nil] at h') hnew p
        rw [hsl, ← List.append_nil (start :: l), hxm]
        refine ⟨_, _, _, rfl,
          IsList.inserted _ _ h' hnew ?_ ?_ ?_ (getLast?_nodes xs m) rfl ?_ ?_ ?_⟩
        · intro c hc
          rw [← hxm] at hc
          rcases List.mem_cons.1 hc with rfl | hc
          · exact hle
          · simpa using hlow c hc
        · simp
        · simp
        · funext c
          cases c <;> simp [Nodes.nextOf, Function.update_apply]
        · intro tail
          refine ⟨some new, ?_⟩
          funext c
          cases c <;> simp [Nodes.prevOf, Function.update_apply]
        · simp
      | some c =>
        obtain ⟨hc, as, bs, rfl, has⟩ := List.find?_eq_some_iff_append.1 hf
        -- the last process before `c`
        obtain ⟨xs, q, hxq⟩ := (List.eq_nil_or_concat (start :: as)).resolve_left (by simp)
        rw [List.concat_eq_append] at hxq
        have h' : IsList s (some start) (xs ++ [q] ++ c :: bs) := by
          rw [← hxq]
          exact h
        have hcn : c ≠ new := fun e => hnew (e ▸ h'.live c (by simp))
        have hq : (s.node c).prev = some q := by
          obtain ⟨tail, hr⟩ := h'.ring
          rw [List.map_append] at hr
          exact (hr.next_eq _ _ (getLast?_nodes xs q) rfl).2
        have hlist : start :: (as ++ c :: bs) = xs ++ [q] ++ c :: bs := by
          rw [← hxq]
          rfl
        simp only [Nodes.setP_prev, Nodes.alloc_node, hq]
        rw [hlist]
        refine ⟨_, _, _, rfl,
          IsList.inserted _ _ h' hnew ?_ ?_ ?_ (getLast?_nodes xs q) rfl ?_ ?_ ?_⟩
        · intro d hd
          rw [← hxq] at hd
          rcases List.mem_cons.1 hd with rfl | hd
          · exact hle
          · simpa using has d hd
        · simpa using hc
        · simp
        · funext d
          cases d <;> simp [Nodes.nextOf, Function.update_apply]
        · intro tail
          refine ⟨tail, ?_⟩
          funext d
          cases d <;> simp [Nodes.prevOf, Function.update_apply]
        · simp

/-- How a removal leaves the nodes: `l'` is the list after it. -/
structure Removed (s s' : Nodes π) (head' : Option ℕ) (l l' : List ℕ) : Prop where
  list : IsList s' head' l'
  nodes (a : ℕ) : a ∈ l' → a ∈ l
  live (a : ℕ) : a ∈ s'.live ↔ a ∈ s.live ∧ (a ∈ l → a ∈ l')
  frame (a : ℕ) : a ∉ l → s'.node a = s.node a

/-- Unlinking the node `n` from between `a` and `b`. -/
theorem IsList.removed (xs ys : List ℕ) (h : IsList s head (xs ++ n :: ys))
    (hlive : s'.live = s.live.erase n)
    (ha : (none :: xs.map some).getLast? = some a) (hb : (ys.map some ++ [none]).head? = some b)
    (hnext : s'.nextOf head' = Function.update (s.nextOf head) a b)
    (hprev : ∀ tail, ∃ tail', s'.prevOf tail' = Function.update (s.prevOf tail) b a)
    (hp : ∀ c, (s'.node c).p = (s.node c).p) :
    Removed s s' head' (xs ++ n :: ys) (xs ++ ys) ∧
      procs s' (xs ++ ys) = procs s (xs ++ ys) := by
  have hnd := h.nodup
  have hn : n ∉ xs ++ ys := (List.nodup_cons.1 (List.nodup_middle.1 hnd)).1
  have hsub (c : ℕ) (hc : c ∈ xs ++ ys) : c ∈ xs ++ n :: ys := by
    simp only [List.mem_append, List.mem_cons] at hc ⊢
    exact hc.imp_right Or.inr
  refine ⟨⟨⟨?_, ?_⟩, hsub, ?_, ?_⟩, ?_⟩
  · intro c hc
    rw [hlive, Finset.mem_erase]
    exact ⟨fun e => hn (e ▸ hc), h.live c (hsub c hc)⟩
  · obtain ⟨tail, hr⟩ := h.ring
    obtain ⟨tail', ht⟩ := hprev tail
    refine ⟨tail', ?_⟩
    rw [List.map_append, List.map_cons] at hr
    rw [List.map_append, hnext, ht]
    apply Linked.remove hr ha hb
    · exact Function.update_self ..
    · exact Function.update_self ..
    · intro c _ hca
      exact Function.update_of_ne hca ..
    · intro c _ hcb
      exact Function.update_of_ne hcb ..
  · intro c
    rw [hlive, Finset.mem_erase, and_comm]
    refine and_congr_right fun _ => ⟨fun hcn hc => ?_, fun hc hcn => ?_⟩
    · simp only [List.mem_append, List.mem_cons] at hc ⊢
      exact hc.imp_right fun h => h.resolve_left hcn
    · exact hn (hcn ▸ hc (by rw [hcn]; exact List.mem_append_right _ List.mem_cons_self))
  · intro c hcl
    have hca : some c ≠ a := ne_last ha fun hx => hcl (List.mem_append_left _ hx)
    have hcb : some c ≠ b :=
      ne_first hb fun hy => hcl (List.mem_append_right _ (List.mem_cons_of_mem _ hy))
    obtain ⟨tail', ht⟩ := hprev none
    have hn := congrFun hnext (some c)
    have hq := congrFun ht (some c)
    rw [Function.update_of_ne hca] at hn
    rw [Function.update_of_ne hcb] at hq
    exact Node.ext (hp c) hn hq
  · exact List.map_congr_left fun c _ => hp c

/-- The search for the node of a process. -/
theorem IsList.search_node [DecidableEq π] (h : IsList s head l) (p : π) :
    search (s.nextOf head) (isNodeOf s p) (s.live.card + 1) head
      = some (l.find? fun c => (s.node c).p = p) := by
  obtain ⟨tail, hr⟩ := h.ring
  have hlen := h.length_le
  have hhead : (l.map some ++ [none]).head? = some head := by
    rw [h.head_eq]
    cases l <;> rfl
  apply Linked.search_suffix [] _ hr hhead
  · exact find?_map_some _ rfl l
  · rw [List.length_map]
    exact Nat.lt_succ_of_le hlen

/-- `process_remove` takes out the first node of the process. -/
theorem processRemove_spec [DecidableEq π] (h : IsList s head l) {p : π} (hp : p ∈ procs s l) :
    ∃ s' head' l', processRemove s head p = some (s', head') ∧ Removed s s' head' l l' ∧
      procs s' l' = (procs s l).erase p := by
  have hsearch := h.search_node p
  obtain ⟨n, hf⟩ : ∃ n, l.find? (fun c => (s.node c).p = p) = some n := by
    obtain ⟨c, hc, hcp⟩ := List.mem_map.1 hp
    exact Option.isSome_iff_exists.1 (List.find?_isSome.2 ⟨c, hc, by simpa using hcp⟩)
  obtain ⟨hpn, as, bs, rfl, has⟩ := List.find?_eq_some_iff_append.1 hf
  have hpn : (s.node n).p = p := by simpa using hpn
  have has : ∀ c ∈ as, (s.node c).p ≠ p := by simpa using has
  have herase : (procs s (as ++ n :: bs)).erase p = procs s (as ++ bs) := by
    have hnot : p ∉ procs s as := by
      intro hm
      obtain ⟨c, hc, hcp⟩ := List.mem_map.1 hm
      exact has c hc hcp
    rw [procs_append, procs_cons, List.erase_append_right _ hnot, hpn, List.erase_cons_head,
      ← procs_append]
  obtain ⟨tail, hr⟩ := h.ring
  obtain ⟨a, ha⟩ : ∃ a, (none :: as.map some).getLast? = some a :=
    ⟨_, List.getLast?_eq_some_getLast (by simp)⟩
  obtain ⟨b, hb⟩ : ∃ b, (bs.map some ++ [none]).head? = some b := by
    cases bs <;> exact ⟨_, rfl⟩
  have hprev : (s.node n).prev = a := by
    rw [List.map_append] at hr
    exact (hr.next_eq _ _ ha rfl).2
  have hnext : (s.node n).next = b := by
    rw [h.next_eq as bs]
    cases bs <;> exact Option.some.inj hb
  -- reading `n` again after its predecessor changed gives the same links
  have hsame (v : Option ℕ) (q : ℕ) (hq : a = some q) :
      ((s.setNext q v).node n).next = b ∧ ((s.setNext q v).node n).prev = a := by
    have hnq : n ≠ q := by
      rintro rfl
      have hmem := List.mem_of_getLast? (hq ▸ ha)
      have : n ∈ as := by simpa using hmem
      exact has n this hpn
    simp [hnq, hnext, hprev]
  rw [herase]
  unfold processRemove
  rw [hsearch, hf]
  cases a with
  | none =>
    simp only [hprev, hnext]
    refine ⟨_, _, as ++ bs, rfl, IsList.removed _ _ h ?_ ha hb ?_ ?_ ?_⟩
    · cases b <;> rfl
    · funext c
      cases b <;> cases c <;> simp [Nodes.nextOf]
    · intro tail
      cases b with
      | none =>
        refine ⟨none, ?_⟩
        funext c
        cases c <;> simp [Nodes.prevOf]
      | some b =>
        refine ⟨tail, ?_⟩
        funext c
        cases c <;> simp [Nodes.prevOf, Function.update_apply]
    · intro c
      cases b <;> simp
  | some q =>
    simp only [hprev, hnext, (hsame b q rfl).1, (hsame b q rfl).2]
    refine ⟨_, _, as ++ bs, rfl, IsList.removed _ _ h ?_ ha hb ?_ ?_ ?_⟩
    · cases b <;> rfl
    · funext c
      cases b <;> cases c <;> simp [Nodes.nextOf, Function.update_apply]
    · intro tail
      cases b with
      | none =>
        refine ⟨some q, ?_⟩
        funext c
        cases c <;> simp [Nodes.prevOf]
      | some b =>
        refine ⟨tail, ?_⟩
        funext c
        cases c <;> simp [Nodes.prevOf, Function.update_apply]
    · intro c
      cases b <;> simp

/-- `process_remove_lowest` takes out the first process. -/
theorem processRemoveLowest_spec (h : IsList s head l) :
    ∃ s' head' l', processRemoveLowest s head = ((procs s l).head?, s', head') ∧
      Removed s s' head' l l' ∧ procs s' l' = (procs s l).tail := by
  have hhead := h.head_eq
  cases l with
  | nil =>
    obtain rfl : head = none := hhead
    exact ⟨s, none, [], rfl, ⟨h, fun _ => id, by simp, fun _ _ => rfl⟩, rfl⟩
  | cons n l =>
    obtain rfl : head = some n := hhead
    have hnext : (s.node n).next = l.head? := h.next_eq [] l
    have hb : (l.map some ++ [none]).head? = some l.head? := by
      cases l <;> rfl
    unfold processRemoveLowest
    simp only [hnext]
    generalize l.head? = b at hb
    refine ⟨_, _, l, Prod.ext ?_ rfl, IsList.removed [] l h ?_ rfl hb ?_ ?_ ?_⟩
    · cases b <;> simp
    · cases b <;> rfl
    · funext c
      cases b <;> cases c <;> simp [Nodes.nextOf, Function.update_apply]
    · intro tail
      cases b with
      | none =>
        refine ⟨none, ?_⟩
        funext c
        cases c <;> simp [Nodes.prevOf]
      | some b =>
        refine ⟨tail, ?_⟩
        funext c
        cases c <;> simp [Nodes.prevOf, Function.update_apply]
    · intro c
      cases b <;> simp

/-! ## Runs of the list operations -/

/-- A process list in use. The last two fields are histories: the processes put in and the
processes taken out. -/
structure Listing (π : Type*) where
  nodes : Nodes π
  head : Option ℕ
  vruntime : π → Word
  inserted : Multiset π
  removed : Multiset π

inductive Call (π : Type*)
  | insert (kmalloc : Kmalloc) (p : π)
  | remove (p : π)
  | removeLowest
  /-- the vruntime of a process changes -/
  | charge (p : π) (v : Word)

namespace Listing

/-- The processes put in and not taken out since. -/
def listed [DecidableEq π] (s : Listing π) : Multiset π := s.inserted - s.removed

/-- Only processes of the list are removed by name, and none of them changes its vruntime. -/
def Callable [DecidableEq π] (s : Listing π) : Call π → Prop
  | .insert _ _ => True
  | .remove p => p ∈ s.listed
  | .removeLowest => True
  | .charge p _ => p ∉ s.listed

def call [DecidableEq π] (s : Listing π) : Call π → Option (Listing π)
  | .insert kmalloc p =>
    match processInsert s.vruntime kmalloc s.nodes s.head p with
    | none => none
    | some (nodes, head) =>
      some { s with nodes := nodes, head := head, inserted := p ::ₘ s.inserted }
  | .remove p =>
    match processRemove s.nodes s.head p with
    | none => none
    | some (nodes, head) =>
      some { s with nodes := nodes, head := head, removed := p ::ₘ s.removed }
  | .removeLowest =>
    match processRemoveLowest s.nodes s.head with
    | (none, nodes, head) => some { s with nodes := nodes, head := head }
    | (some p, nodes, head) =>
      some { s with nodes := nodes, head := head, removed := p ::ₘ s.removed }
  | .charge p v => some { s with vruntime := Function.update s.vruntime p v }

def Step [DecidableEq π] (s : Listing π) (e : Call π) (u : Listing π) : Prop :=
  s.Callable e ∧ s.call e = some u

/-- A list that starts empty, whatever the heap holds. -/
def empty (nodes : Nodes π) (vruntime : π → Word) : Listing π := ⟨nodes, none, vruntime, 0, 0⟩

/-- `l` is the list: linked up, in order of vruntime, and holding what was put in and not
taken out. -/
structure Represents (s : Listing π) (l : List ℕ) : Prop where
  list : IsList s.nodes s.head l
  sorted : (procs s.nodes l).Pairwise fun p q => s.vruntime p ≤ s.vruntime q
  accounted : s.inserted = s.removed + ↑(procs s.nodes l)

variable {s u : Listing π}

theorem Represents.listed_eq [DecidableEq π] (h : s.Represents l) :
    s.listed = ↑(procs s.nodes l) := by
  unfold listed
  rw [h.accounted, add_tsub_cancel_left]

theorem Represents.lowest (h : s.Represents l) :
    (processRemoveLowest s.nodes s.head).1 = (procs s.nodes l).head? := by
  obtain ⟨nodes, head, l', he, -⟩ := processRemoveLowest_spec h.list
  rw [he]

/-- A process taken out of the list. -/
theorem Represents.of_removed (h : s.Represents l) {nodes : Nodes π} {l' : List ℕ} {p : π}
    (hr : Removed s.nodes nodes head' l l') (hp : (procs s.nodes l).Perm (p :: procs nodes l'))
    (hsub : (procs nodes l').Sublist (procs s.nodes l)) :
    Represents { s with nodes := nodes, head := head', removed := p ::ₘ s.removed } l' := by
  constructor
  · exact hr.list
  · exact h.sorted.sublist hsub
  · change s.inserted = p ::ₘ s.removed + ↑(procs nodes l')
    rw [h.accounted, Multiset.coe_eq_coe.2 hp, ← Multiset.cons_coe, Multiset.add_cons,
      Multiset.cons_add]

theorem Represents.insert (h : s.Represents l) (kmalloc : Kmalloc) (p : π) :
    ∃ u l', (processInsert s.vruntime kmalloc s.nodes s.head p = some (u.nodes, u.head) ∧
      u = { s with nodes := u.nodes, head := u.head, inserted := p ::ₘ s.inserted }) ∧
      Represents u l' := by
  obtain ⟨nodes, head', l', he, hi⟩ := processInsert_spec s.vruntime kmalloc h.list p
  refine ⟨⟨nodes, head', s.vruntime, p ::ₘ s.inserted, s.removed⟩, l', ⟨he, rfl⟩, hi.list, ?_, ?_⟩
  · change (procs nodes l').Pairwise fun p q => s.vruntime p ≤ s.vruntime q
    rw [hi.procs_eq]
    have : Std.Total fun p q => s.vruntime p ≤ s.vruntime q := ⟨fun p q => BitVec.le_total _ _⟩
    have : IsTrans π fun p q => s.vruntime p ≤ s.vruntime q := ⟨fun _ _ _ => BitVec.le_trans⟩
    exact h.sorted.orderedInsert _ _
  · change p ::ₘ s.inserted = s.removed + ↑(procs nodes l')
    rw [hi.procs_eq, h.accounted, Multiset.coe_eq_coe.2 (List.perm_orderedInsert _ p _),
      ← Multiset.cons_coe, Multiset.add_cons]

/-- Every call that may be made has a result, and keeps the list. -/
theorem Represents.call [DecidableEq π] (h : s.Represents l) {e : Call π} (he : s.Callable e) :
    ∃ u l', s.call e = some u ∧ u.Represents l' := by
  cases e with
  | insert kmalloc p =>
    obtain ⟨u, l', ⟨hi, hu⟩, hr⟩ := h.insert kmalloc p
    refine ⟨u, l', ?_, hr⟩
    simp only [Listing.call, hi]
    rw [← hu]
  | remove p =>
    have hp : p ∈ procs s.nodes l := by
      change p ∈ s.listed at he
      rwa [h.listed_eq, Multiset.mem_coe] at he
    obtain ⟨nodes, head', l', hc, hr, hprocs⟩ := processRemove_spec h.list hp
    refine ⟨_, l', by simp only [Listing.call, hc]; rfl, h.of_removed hr ?_ ?_⟩
    · rw [hprocs]
      exact List.perm_cons_erase hp
    · rw [hprocs]
      exact List.erase_sublist
  | removeLowest =>
    obtain ⟨nodes, head', l', hc, hr, hprocs⟩ := processRemoveLowest_spec h.list
    cases hl : procs s.nodes l with
    | nil =>
      rw [hl] at hc hprocs
      refine ⟨_, l', by simp only [Listing.call, hc]; rfl, hr.list, ?_, ?_⟩
      · change (procs nodes l').Pairwise _
        rw [hprocs]
        exact List.Pairwise.nil
      · change s.inserted = s.removed + ↑(procs nodes l')
        rw [hprocs, h.accounted, hl, List.tail_nil]
    | cons p ps =>
      rw [hl] at hc hprocs
      refine ⟨_, l', by simp only [Listing.call, hc]; rfl, h.of_removed hr ?_ ?_⟩
      · rw [hprocs, hl, List.tail_cons]
      · rw [hprocs, hl, List.tail_cons]
        exact List.sublist_cons_self p ps
  | charge p v =>
    have hp : p ∉ procs s.nodes l := by
      change p ∉ s.listed at he
      rwa [h.listed_eq, Multiset.mem_coe] at he
    refine ⟨_, l, rfl, h.list, ?_, h.accounted⟩
    refine List.Pairwise.imp_of_mem ?_ h.sorted
    intro q r hq hr hqr
    have hqp : q ≠ p := fun e => hp (e ▸ hq)
    have hrp : r ≠ p := fun e => hp (e ▸ hr)
    change Function.update s.vruntime p v q ≤ Function.update s.vruntime p v r
    rwa [Function.update_of_ne hqp, Function.update_of_ne hrp]

theorem reachable_represents [DecidableEq π] {nodes : Nodes π} {vruntime : π → Word}
    (h : Execution Step (empty nodes vruntime) s) : ∃ l, s.Represents l := by
  refine h.invariant (I := fun s => ∃ l, s.Represents l) ?_ ?_
  · rintro s e u ⟨l, hl⟩ ⟨he, hu⟩
    obtain ⟨v, l', hv, hr⟩ := hl.call he
    obtain rfl : v = u := Option.some.inj (hv.symm.trans hu)
    exact ⟨l', hr⟩
  · exact ⟨[], ⟨by simp, none, by simp, by simp [empty, Nodes.nextOf, Nodes.prevOf]⟩,
      List.Pairwise.nil, rfl⟩

end Listing

/-- The back links of a list, as the code sees them. -/
theorem IsList.back_links (h : IsList s head l) :
    (∀ n, head = some n → (s.node n).prev = none) ∧
      ∀ n ∈ l, ∀ m, (s.node n).next = some m → m ∈ l ∧ (s.node m).prev = some n := by
  obtain ⟨tail, hr⟩ := h.ring
  constructor
  · intro n hn
    have hl : l.head? = some n := h.head_eq ▸ hn
    have hb : (l.map some ++ [none]).head? = some (some n) := by
      rw [List.head?_append, List.head?_map, hl]
      rfl
    exact (hr.next_eq [] _ rfl hb).2
  · intro n hn m hm
    obtain ⟨xs, ys, rfl⟩ := List.append_of_mem hn
    have hy : ys.head? = some m := (h.next_eq xs ys).symm.trans hm
    obtain ⟨zs, rfl⟩ := List.head?_eq_some_iff.1 hy
    refine ⟨by simp, ?_⟩
    have hr' : Linked (s.nextOf head) (s.prevOf tail) none
        ((xs ++ [n]).map some ++ (m :: zs).map some) := by
      simpa using hr
    exact (hr'.next_eq _ _ (getLast?_nodes xs n) rfl).2

/-- The list in every state of every run. -/
theorem process_list_contract [DecidableEq π] {nodes : Nodes π} {vruntime : π → Word}
    {s : Listing π} (h : Execution Listing.Step (Listing.empty nodes vruntime) s) :
    ∃ l, IsList s.nodes s.head l ∧
      (∀ n, s.head = some n → (s.nodes.node n).prev = none) ∧
      (∀ n ∈ l, ∀ m, (s.nodes.node n).next = some m →
        m ∈ l ∧ (s.nodes.node m).prev = some n) ∧
      (procs s.nodes l).Pairwise (fun p q => s.vruntime p ≤ s.vruntime q) ∧
      s.removed ≤ s.inserted ∧ ↑(procs s.nodes l) = s.inserted - s.removed ∧
      ((processRemoveLowest s.nodes s.head).1 = none ↔ l = []) ∧
      (∀ p, (processRemoveLowest s.nodes s.head).1 = some p →
        p ∈ procs s.nodes l ∧ ∀ q ∈ procs s.nodes l, s.vruntime p ≤ s.vruntime q) ∧
      ∀ e, s.Callable e → ∃ u, Listing.Step s e u := by
  obtain ⟨l, hl⟩ := Listing.reachable_represents h
  obtain ⟨hhead, hback⟩ := hl.list.back_links
  refine ⟨l, hl.list, hhead, hback, hl.sorted, ?_, hl.listed_eq.symm, ?_, ?_, ?_⟩
  · rw [hl.accounted]
    exact Multiset.le_add_right _ _
  · rw [hl.lowest, List.head?_eq_none_iff, procs, List.map_eq_nil_iff]
  · intro p hp
    rw [hl.lowest] at hp
    obtain ⟨ps, hps⟩ := List.head?_eq_some_iff.1 hp
    have hsorted := hl.sorted
    rw [hps] at hsorted ⊢
    refine ⟨List.mem_cons_self, fun q hq => ?_⟩
    rcases List.mem_cons.1 hq with rfl | hq
    · exact BitVec.le_refl _
    · exact List.rel_of_pairwise_cons hsorted hq
  · intro e he
    obtain ⟨u, -, hu, -⟩ := hl.call he
    exact ⟨u, he, hu⟩

/-- Two processes are put in, the second one with the lower vruntime, and it comes out first. -/
theorem process_list_contract_two : ∃ (kmalloc : Kmalloc) (s : Listing ℕ) (l : List ℕ),
    Listing.Step (Listing.empty ⟨fun _ => ⟨0, none, none⟩, ∅⟩ (BitVec.ofNat 64))
      (.insert kmalloc 7) s ∧ s.inserted = {7} ∧
    (↑(procs s.nodes l) : Multiset ℕ) = s.inserted - s.removed ∧
    ∃ u, Listing.Step s (.insert kmalloc 3) u ∧
      (processRemoveLowest u.nodes u.head).1 = some 3 := by
  let kmalloc : Kmalloc := ⟨fun live => live.sup id + 1, fun _ hm =>
    absurd (Finset.le_sup (f := id) hm) (Nat.not_succ_le_self _)⟩
  let start : Listing ℕ := Listing.empty ⟨fun _ => ⟨0, none, none⟩, ∅⟩ (BitVec.ofNat 64)
  obtain ⟨s, hs, hi, hlow⟩ : ∃ s, start.call (.insert kmalloc 7) = some s ∧ s.inserted = {7} ∧
      ∀ u, s.call (.insert kmalloc 3) = some u →
        (processRemoveLowest u.nodes u.head).1 = some 3 := by
    refine ⟨_, rfl, rfl, ?_⟩
    rintro u ⟨⟩
    rfl
  have hone : Listing.Step start (.insert kmalloc 7) s := ⟨trivial, hs⟩
  obtain ⟨l, -, -, -, -, -, hl, -, -, hstep⟩ := process_list_contract (Execution.single hone)
  obtain ⟨u, hu⟩ := hstep (.insert kmalloc 3) trivial
  exact ⟨kmalloc, s, l, hone, hi, hl, u, hu, hlow u hu.2⟩

end ProcessList
