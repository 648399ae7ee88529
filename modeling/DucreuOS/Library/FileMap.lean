import DucreuOS.Library.Transition

/-! # Maps from paths to files

What a file system is for: a map from paths, which are lists of names, to directories and to the
bytes of files. A tree of nodes with named edges gives such a map; a leaf more or less changes it at
one path. -/
namespace FileMap

open Transition

variable {ι ν β : Type*}

inductive Node (β : Type*)
  | directory
  | file (bytes : List β)

abbrev Files (ν β : Type*) := List ν → Option (Node β)

/-! ## Calls -/

inductive Call (ν β : Type*)
  | touch (p : List ν) (x : ν)
  | mkdir (p : List ν) (x : ν)
  | rm (p : List ν) (x : ν)
  | rmdir (p : List ν) (x : ν)
  | append (p : List ν) (bytes : List β)

namespace Call

/-- The one path that the call is about. -/
def path : Call ν β → List ν
  | touch p x | mkdir p x | rm p x | rmdir p x => p ++ [x]
  | append p _ => p

def Allowed (s : Files ν β) : Call ν β → Prop
  | touch p x | mkdir p x => s p = some .directory ∧ s (p ++ [x]) = none
  | rm p x => ∃ bytes, s (p ++ [x]) = some (.file bytes)
  | rmdir p x => s (p ++ [x]) = some .directory ∧ ∀ y, s (p ++ [x] ++ [y]) = none
  | append p _ => ∃ bytes, s p = some (.file bytes)

/-- An empty directory may be kept. -/
def Refusable (s : Files ν β) : Call ν β → Prop
  | rmdir _ _ => True
  | c => ¬ c.Allowed s

/-- What is at the path when the call has been carried out. -/
def result (s : Files ν β) : Call ν β → Option (Node β)
  | touch _ _ => some (.file [])
  | mkdir _ _ => some .directory
  | rm _ _ | rmdir _ _ => none
  | append p bytes => match s p with
    | some (.file old) => some (.file (old ++ bytes))
    | node => node

end Call

/-- A call, with whether it is carried out. -/
def Step [DecidableEq ν] (s : Files ν β) (e : Call ν β × Bool) (s' : Files ν β) : Prop :=
  if e.2 then e.1.Allowed s ∧ s' = Function.update s e.1.path (e.1.result s)
  else e.1.Refusable s ∧ s' = s

/-- Everything is in a directory. -/
structure WellFormed (s : Files ν β) : Prop where
  root : s [] = some .directory
  parent (p : List ν) (x : ν) : s (p ++ [x]) ≠ none → s p = some .directory

section Steps

variable {s s' : Files ν β} {c : Call ν β} {e : Call ν β × Bool}
  {es : List (Call ν β × Bool)} {p q : List ν} {b : Bool}

theorem snoc_ne_nil (x : ν) : p ++ [x] ≠ [] := List.append_ne_nil_of_right_ne_nil p (by simp)

theorem snoc_ne_self (x : ν) : p ++ [x] ≠ p := by simp

/-- The paths of one name more come from one path. -/
theorem snoc_inj {x y : ν} (h : p ++ [x] = q ++ [y]) : p = q ∧ x = y := by
  simpa using List.append_inj' h rfl

/-- Nothing is in a file. -/
theorem WellFormed.no_child (h : WellFormed s) {bytes : List β} (hfile : s p = some (.file bytes))
    (x : ν) : s (p ++ [x]) = none := by
  by_contra hne
  have hdir := h.parent p x hne
  rw [hfile] at hdir
  cases hdir

theorem WellFormed.no_child_of_none (h : WellFormed s) (hnone : s p = none) (x : ν) :
    s (p ++ [x]) = none := by
  by_contra hne
  have hdir := h.parent p x hne
  rw [hnone] at hdir
  cases hdir

variable [DecidableEq ν]

/-- A call leaves all other paths alone. -/
theorem Step.frame (h : Step s e s') (hq : q ≠ e.1.path) : s' q = s q := by
  unfold Step at h
  split at h
  · rw [h.2, Function.update_of_ne hq]
  · rw [h.2]

/-- What is put at a path is in a directory, and nothing is in what is no directory. -/
theorem WellFormed.update (h : WellFormed s) {t : List ν} {node : Option (Node β)}
    (hroot : t = [] → node = some .directory)
    (hput : ∀ p x, t = p ++ [x] → node ≠ none → s p = some .directory)
    (hlost : node ≠ some .directory → ∀ x, s (t ++ [x]) = none) :
    WellFormed (Function.update s t node) where
  root := by
    by_cases ht : t = []
    · subst ht
      rw [Function.update_self, hroot rfl]
    · rw [Function.update_of_ne (Ne.symm ht), h.root]
  parent p x hne := by
    have hparent : s p = some .directory := by
      by_cases htx : p ++ [x] = t
      · subst htx
        rw [Function.update_self] at hne
        exact hput p x rfl hne
      · rw [Function.update_of_ne htx] at hne
        exact h.parent p x hne
    by_cases htp : p = t
    · subst htp
      rw [Function.update_self]
      by_contra hno
      rw [Function.update_of_ne (snoc_ne_self x), hlost hno x] at hne
      exact hne rfl
    · rw [Function.update_of_ne htp, hparent]

theorem Step.wellFormed (h : WellFormed s) (hstep : Step s e s') : WellFormed s' := by
  obtain ⟨c, b⟩ := e
  unfold Step at hstep
  split at hstep
  · obtain ⟨hallowed, rfl⟩ := hstep
    cases c with
    | touch p x =>
      refine h.update (fun hnil => absurd hnil (snoc_ne_nil x)) (fun q y hq _ => ?_)
        fun _ => h.no_child_of_none hallowed.2
      obtain ⟨rfl, -⟩ := snoc_inj hq
      exact hallowed.1
    | mkdir p x =>
      refine h.update (fun hnil => absurd hnil (snoc_ne_nil x)) (fun q y hq _ => ?_)
        fun _ => h.no_child_of_none hallowed.2
      obtain ⟨rfl, -⟩ := snoc_inj hq
      exact hallowed.1
    | rm p x =>
      obtain ⟨bytes, hfile⟩ := hallowed
      exact h.update (fun hnil => absurd hnil (snoc_ne_nil x)) (fun _ _ _ hne => absurd rfl hne)
        fun _ => h.no_child hfile
    | rmdir p x =>
      exact h.update (fun hnil => absurd hnil (snoc_ne_nil x)) (fun _ _ _ hne => absurd rfl hne)
        fun _ => hallowed.2
    | append p bytes =>
      obtain ⟨old, hfile⟩ := hallowed
      have hroot : p ≠ [] := by
        rintro rfl
        have hdir := h.root
        rw [hfile] at hdir
        cases hdir
      refine h.update (fun hnil => absurd hnil hroot) (fun q y hq _ => ?_)
        fun _ => h.no_child hfile
      have hpath : p = q ++ [y] := hq
      subst hpath
      exact h.parent q y (by rw [hfile]; exact Option.some_ne_none _)
  · exact hstep.2 ▸ h

/-- The bytes that the calls append at a path. -/
def appended (q : List ν) : List (Call ν β × Bool) → List β
  | [] => []
  | (.append p bytes, true) :: es => (if p = q then bytes else []) ++ appended q es
  | _ :: es => appended q es

end Steps

/-! ## The map of a tree -/

/-- The names lead from the root to the node. -/
inductive Path (edge : ι → ν → ι → Prop) (root : ι) : List ν → ι → Prop
  | root : Path edge root [] root
  | step {p : List ν} {x : ν} {d n : ι} : Path edge root p d → edge d x n →
    Path edge root (p ++ [x]) n

/-- A node has one name, and the root has none. -/
structure Tree (edge : ι → ν → ι → Prop) (root : ι) : Prop where
  functional {d n n' : ι} {x : ν} : edge d x n → edge d x n' → n = n'
  once {d d' n : ι} {x x' : ν} : edge d x n → edge d' x' n → d = d' ∧ x = x'
  top (d : ι) (x : ν) : ¬ edge d x root

section Paths

variable {edge edge' : ι → ν → ι → Prop} {root d n m parent : ι} {p q : List ν} {x : ν}

theorem path_nil : Path edge root [] n ↔ n = root := by
  constructor
  · intro h
    generalize hp : ([] : List ν) = p at h
    cases h with
    | root => rfl
    | step _ _ => exact absurd hp.symm (snoc_ne_nil _)
  · rintro rfl
    exact .root

theorem path_snoc : Path edge root (p ++ [x]) n ↔ ∃ d, Path edge root p d ∧ edge d x n := by
  constructor
  · intro h
    generalize hq : p ++ [x] = q at h
    cases h with
    | root => exact absurd hq (snoc_ne_nil _)
    | step hd hn =>
      obtain ⟨rfl, rfl⟩ := snoc_inj hq
      exact ⟨_, hd, hn⟩
  · rintro ⟨d, hd, hn⟩
    exact .step hd hn

theorem Path.functional (ht : Tree edge root) (h : Path edge root p n) (h' : Path edge root p m) :
    n = m := by
  induction h generalizing m with
  | root => exact (path_nil.mp h').symm
  | step _ hn ih =>
    obtain ⟨d', hd', hm⟩ := path_snoc.mp h'
    obtain rfl := ih hd'
    exact ht.functional hn hm

theorem Path.unique (ht : Tree edge root) (h : Path edge root p n) (h' : Path edge root q n) :
    p = q := by
  induction h generalizing q with
  | root =>
    cases h' with
    | root => rfl
    | step _ hn => exact absurd hn (ht.top _ _)
  | step _ hn ih =>
    cases h' with
    | root => exact absurd hn (ht.top _ _)
    | step hd' hn' =>
      obtain ⟨rfl, rfl⟩ := ht.once hn hn'
      rw [ih hd']

/-- A new leaf is at the end of one new path. -/
theorem path_add_leaf
    (hedge : ∀ d y m, edge' d y m ↔ edge d y m ∨ (d = parent ∧ y = x ∧ m = n))
    (hleaf : ∀ y m, ¬ edge n y m) (hparent : n ≠ parent) :
    Path edge' root q m ↔
      Path edge root q m ∨ ∃ p, Path edge root p parent ∧ q = p ++ [x] ∧ m = n := by
  constructor
  · intro h
    induction h with
    | root => exact Or.inl .root
    | step _ hm ih =>
      rcases ih with hd | ⟨p, -, -, rfl⟩
      · rcases (hedge _ _ _).mp hm with hold | ⟨rfl, rfl, rfl⟩
        · exact Or.inl (.step hd hold)
        · exact Or.inr ⟨_, hd, rfl, rfl⟩
      · rcases (hedge _ _ _).mp hm with hold | ⟨heq, -, -⟩
        · exact absurd hold (hleaf _ _)
        · exact absurd heq hparent
  · have hmono {q : List ν} {m : ι} (h : Path edge root q m) : Path edge' root q m := by
      induction h with
      | root => exact .root
      | step _ hm ih => exact .step ih ((hedge _ _ _).mpr (Or.inl hm))
    rintro (h | ⟨p, hp, rfl, rfl⟩)
    · exact hmono h
    · exact .step (hmono hp) ((hedge _ _ _).mpr (Or.inr ⟨rfl, rfl, rfl⟩))

/-- Without a leaf, its path is missing. -/
theorem path_remove_leaf (hedge : ∀ d y m, edge' d y m ↔ edge d y m ∧ m ≠ n)
    (hleaf : ∀ y m, ¬ edge n y m) (hroot : n ≠ root) :
    Path edge' root q m ↔ Path edge root q m ∧ m ≠ n := by
  constructor
  · intro h
    induction h with
    | root => exact ⟨.root, hroot.symm⟩
    | step _ hm ih =>
      obtain ⟨hold, hne⟩ := (hedge _ _ _).mp hm
      exact ⟨.step ih.1 hold, hne⟩
  · rintro ⟨h, hne⟩
    induction h with
    | root => exact .root
    | step _ hm ih =>
      refine .step (ih ?_) ((hedge _ _ _).mpr ⟨hm, hne⟩)
      rintro rfl
      exact hleaf _ _ hm

open Classical in
/-- The map of a tree whose nodes are these. -/
noncomputable def filesOf (edge : ι → ν → ι → Prop) (root : ι) (node : ι → Node β) : Files ν β :=
  fun p => if h : ∃ n, Path edge root p n then some (node h.choose) else none

variable {node node' : ι → Node β} {c : Node β}

theorem filesOf_some (ht : Tree edge root) (h : Path edge root p n) :
    filesOf edge root node p = some (node n) := by
  have hex : ∃ n, Path edge root p n := ⟨n, h⟩
  rw [filesOf, dif_pos hex, hex.choose_spec.functional ht h]

theorem filesOf_none (h : ∀ n, ¬ Path edge root p n) : filesOf edge root node p = none :=
  dif_neg fun ⟨n, hn⟩ => h n hn

theorem filesOf_iff (ht : Tree edge root) :
    filesOf edge root node p = some c ↔ ∃ n, Path edge root p n ∧ node n = c := by
  by_cases hex : ∃ n, Path edge root p n
  · obtain ⟨n, hn⟩ := hex
    rw [filesOf_some ht hn, Option.some.injEq]
    constructor
    · exact fun h => ⟨n, hn, h⟩
    · rintro ⟨m, hm, rfl⟩
      rw [hn.functional ht hm]
  · rw [filesOf_none fun n hn => hex ⟨n, hn⟩]
    exact iff_of_false (by simp) fun ⟨n, hn, _⟩ => hex ⟨n, hn⟩

variable [DecidableEq ν]

/-- Two trees that differ at one path. -/
theorem filesOf_update (ht : Tree edge root) (ht' : Tree edge' root) {t : List ν}
    (hpath : ∀ q m, q ≠ t → (Path edge' root q m ↔ Path edge root q m))
    (hnode : ∀ q m, q ≠ t → Path edge root q m → node' m = node m) :
    filesOf edge' root node'
      = Function.update (filesOf edge root node) t (filesOf edge' root node' t) := by
  funext q
  by_cases hq : q = t
  · subst hq
    rw [Function.update_self]
  · rw [Function.update_of_ne hq]
    apply Option.ext
    intro c
    rw [filesOf_iff ht, filesOf_iff ht']
    constructor
    · rintro ⟨m, hm, rfl⟩
      have hold := (hpath q m hq).mp hm
      exact ⟨m, hold, (hnode q m hq hold).symm⟩
    · rintro ⟨m, hm, rfl⟩
      exact ⟨m, (hpath q m hq).mpr hm, hnode q m hq hm⟩

end Paths

end FileMap
