import Mathlib

/-! # Programs that allocate and release blocks

A program works on data of its own beside an explicit set of live blocks. `Computes` says what it
does to both: a function on the data, and which blocks it releases. `FreesOnly` and `Leaks` are for
programs that keep blocks for good, and `Ensures` is total correctness on the data. -/
namespace LiveBlocks

@[ext] structure Heap (B σ : Type) where
  live : Finset B
  data : σ

/-- How the next block is picked. -/
structure Allocator (B : Type) where
  pick : Finset B → B
  pick_fresh : ∀ live, pick live ∉ live

/-- The number behind the largest one in use. -/
def nextBlock : Allocator ℕ where
  pick live := live.sup id + 1
  pick_fresh live hmem := by
    have hle : live.sup id + 1 ≤ live.sup id := Finset.le_sup (f := id) hmem
    omega

/-- Why a program does not return. -/
inductive Fault
  /-- it released a block that is not live -/
  | dead
  /-- its computation on the data has no result -/
  | stuck
  deriving DecidableEq

abbrev Prog (B σ : Type) := StateT (Heap B σ) (Except Fault)

variable {B σ α β : Type} [DecidableEq B]

def allocate (A : Allocator B) : Prog B σ B := fun h =>
  .ok (A.pick h.live, { h with live := insert (A.pick h.live) h.live })

def release (b : B) : Prog B σ Unit := fun h =>
  if b ∈ h.live then .ok ((), { h with live := h.live.erase b }) else .error .dead

/-- A computation on the data alone. -/
def onData (f : StateT σ Option α) : Prog B σ α := fun h =>
  match f h.data with
  | some (a, data) => .ok (a, { h with data })
  | none => .error .stuck

/-! ## What a program computes -/

/-- With the blocks of `own` live, `m` computes `f`, releases `own` and leaves all other blocks. -/
def Computes (own : Finset B) (m : Prog B σ α) (f : StateT σ Option α) : Prop :=
  ∀ h : Heap B σ, own ⊆ h.live → m h = match f h.data with
    | some (a, data) => .ok (a, ⟨h.live \ own, data⟩)
    | none => .error .stuck

theorem Computes.run {m : Prog B σ α} {f : StateT σ Option α} (hm : Computes ∅ m f)
    (h : Heap B σ) : m h = onData f h := by
  have hrun := hm h (Finset.empty_subset _)
  simp only [Finset.sdiff_empty] at hrun
  exact hrun

theorem Computes.congr {own : Finset B} {m : Prog B σ α} {f g : StateT σ Option α}
    (hm : Computes own m f) (h : ∀ d, f d = g d) : Computes own m g := by
  obtain rfl : f = g := funext h
  exact hm

theorem Computes.returns {m : Prog B σ α} {f : StateT σ Option α} (hm : Computes ∅ m f)
    {h h' : Heap B σ} {a : α} (hrun : m h = .ok (a, h')) :
    f h.data = some (a, h'.data) ∧ h'.live = h.live := by
  rw [hm.run, onData] at hrun
  split at hrun
  · rename_i hf
    cases hrun
    exact ⟨hf, rfl⟩
  · cases hrun

theorem computes_onData (f : StateT σ Option α) : Computes (B := B) ∅ (onData f) f := by
  intro h _
  simp only [Finset.sdiff_empty]
  rfl

theorem computes_pure (a : α) : Computes (B := B) (σ := σ) ∅ (pure a) (pure a) := by
  intro h _
  simp only [Finset.sdiff_empty]
  rfl

theorem Computes.bind {own : Finset B} {m : Prog B σ α} {f : StateT σ Option α}
    {k : α → Prog B σ β} {g : α → StateT σ Option β} (hm : Computes ∅ m f)
    (hk : ∀ a, Computes own (k a) (g a)) : Computes own (m >>= k) (f >>= g) := by
  intro h hown
  change m h >>= (fun p => k p.1 p.2) = match f h.data >>= (fun p => g p.1 p.2) with
    | some (a, data) => .ok (a, ⟨h.live \ own, data⟩)
    | none => .error .stuck
  rw [hm.run]
  unfold onData
  cases hf : f h.data with
  | none => rfl
  | some p => exact hk p.1 ⟨h.live, p.2⟩ hown

theorem Computes.allocate {A : Allocator B} {own : Finset B} {k : B → Prog B σ β}
    {f : StateT σ Option β} (hk : ∀ b, b ∉ own → Computes (insert b own) (k b) f) :
    Computes own (LiveBlocks.allocate A >>= k) f := by
  intro h hown
  have hfresh := A.pick_fresh h.live
  have hrun := hk (A.pick h.live) (fun hmem => hfresh (hown hmem))
    ⟨insert (A.pick h.live) h.live, h.data⟩ (Finset.insert_subset_insert _ hown)
  rw [Finset.insert_sdiff_insert, Finset.sdiff_insert_of_notMem hfresh] at hrun
  exact hrun

theorem Computes.release {b : B} {own : Finset B} {k : Unit → Prog B σ β}
    {f : StateT σ Option β} (hb : b ∉ own) (hk : Computes own (k ()) f) :
    Computes (insert b own) (LiveBlocks.release b >>= k) f := by
  intro h hown
  have hlive : b ∈ h.live := hown (Finset.mem_insert_self b own)
  have hrun := hk ⟨h.live.erase b, h.data⟩ fun x hx =>
    Finset.mem_erase.mpr ⟨fun hxb => hb (hxb ▸ hx), hown (Finset.mem_insert_of_mem hx)⟩
  rw [Finset.erase_sdiff_comm, ← Finset.sdiff_insert] at hrun
  change LiveBlocks.release b h >>= (fun p => k p.1 p.2) = _
  unfold LiveBlocks.release
  rw [if_pos hlive]
  exact hrun

/-- The last block. -/
theorem computes_release (b : B) :
    Computes (σ := σ) (insert b ∅) (LiveBlocks.release b) (pure ()) := by
  have h := Computes.release (Finset.notMem_empty b) (computes_pure (σ := σ) ())
  rwa [bind_pure_unit] at h

theorem Computes.ite {own : Finset B} {c : Prop} [Decidable c] {m n : Prog B σ α}
    {f g : StateT σ Option α} (hm : c → Computes own m f) (hn : ¬ c → Computes own n g) :
    Computes own (if c then m else n) (if c then f else g) := by
  split
  · exact hm ‹_›
  · exact hn ‹_›

/-! ## Programs that keep blocks -/

/-- `m` releases nothing but blocks of `own` and blocks that it has allocated itself. -/
def FreesOnly (own : Finset B) (m : Prog B σ α) : Prop :=
  ∀ h a h', m h = .ok (a, h') → h.live \ own ⊆ h'.live

/-- Moreover some block that it has allocated is still live when it returns. -/
def Leaks (own : Finset B) (m : Prog B σ α) : Prop :=
  ∀ h a h', own ⊆ h.live → m h = .ok (a, h') →
    h.live \ own ⊆ h'.live ∧ ∃ b ∈ h'.live, b ∉ h.live

section Rules

variable {own : Finset B} {m : Prog B σ α} {k : α → Prog B σ β}

theorem Computes.freesOnly {f : StateT σ Option α} (hm : Computes ∅ m f) : FreesOnly own m := by
  intro h a h' hrun
  rw [(hm.returns hrun).2]
  exact Finset.sdiff_subset

theorem freesOnly_pure (a : α) : FreesOnly own (pure a : Prog B σ α) := (computes_pure a).freesOnly

theorem release_returns {b : B} {h h' : Heap B σ} {u : Unit}
    (hrun : release b h = .ok (u, h')) : b ∈ h.live ∧ h'.live = h.live.erase b := by
  unfold release at hrun
  split at hrun
  · cases hrun
    exact ⟨‹_›, rfl⟩
  · cases hrun

theorem freesOnly_release {b : B} (hb : b ∈ own) : FreesOnly own (release b : Prog B σ Unit) := by
  intro h a h' hrun x hx
  obtain ⟨hlive, hown⟩ := Finset.mem_sdiff.mp hx
  rw [(release_returns hrun).2]
  exact Finset.mem_erase.mpr ⟨fun hxb => hown (hxb ▸ hb), hlive⟩

omit [DecidableEq B] in
/-- A program that returns has run its first part and then the rest. -/
theorem bind_returns {h h' : Heap B σ} {b : β} (hrun : (m >>= k) h = .ok (b, h')) :
    ∃ a mid, m h = .ok (a, mid) ∧ k a mid = .ok (b, h') := by
  change m h >>= (fun p => k p.1 p.2) = .ok (b, h') at hrun
  cases hm : m h with
  | error e =>
    rw [hm] at hrun
    cases hrun
  | ok p =>
    rw [hm] at hrun
    exact ⟨p.1, p.2, rfl, hrun⟩

omit [DecidableEq B] in
/-- A first part that has returned is followed by the rest. -/
theorem bind_run {h mid : Heap B σ} {a : α} (hm : m h = .ok (a, mid)) : (m >>= k) h = k a mid := by
  change m h >>= (fun p => k p.1 p.2) = _
  rw [hm]
  rfl

theorem FreesOnly.bind (hm : FreesOnly own m) (hk : ∀ a, FreesOnly own (k a)) :
    FreesOnly own (m >>= k) := by
  intro h b h' hrun
  obtain ⟨a, mid, hfirst, hrest⟩ := bind_returns hrun
  have hmid : h.live \ own ⊆ mid.live \ own := fun x hx =>
    Finset.mem_sdiff.mpr ⟨hm h a mid hfirst hx, (Finset.mem_sdiff.mp hx).2⟩
  exact hmid.trans (hk a mid b h' hrest)

theorem FreesOnly.ite {c : Prop} [Decidable c] {n : Prog B σ α} (hm : FreesOnly own m)
    (hn : FreesOnly own n) : FreesOnly own (if c then m else n) := by
  split
  · exact hm
  · exact hn

theorem FreesOnly.allocate {A : Allocator B} {k : B → Prog B σ β}
    (hk : ∀ b, FreesOnly (insert b own) (k b)) : FreesOnly own (LiveBlocks.allocate A >>= k) := by
  intro h b h' hrun
  have hrest := hk (A.pick h.live) ⟨insert (A.pick h.live) h.live, h.data⟩ b h' hrun
  rwa [Finset.insert_sdiff_insert, Finset.sdiff_insert_of_notMem (A.pick_fresh h.live)] at hrest

theorem Leaks.freesOnly (hm : Leaks ∅ m) : FreesOnly own m := fun h a h' hrun =>
  Finset.sdiff_subset.trans (by simpa using (hm h a h' (Finset.empty_subset _) hrun).1)

/-- A block that nothing after it frees. -/
theorem leaks_allocate {A : Allocator B} {k : B → Prog B σ β} (hk : ∀ b, FreesOnly own (k b)) :
    Leaks own (allocate A >>= k) := by
  intro h b h' hown hrun
  have hfresh := A.pick_fresh h.live
  have hrest := hk (A.pick h.live) ⟨insert (A.pick h.live) h.live, h.data⟩ b h' hrun
  refine ⟨fun x hx => ?_, A.pick h.live, ?_, hfresh⟩
  · obtain ⟨hlive, hx⟩ := Finset.mem_sdiff.mp hx
    exact hrest (Finset.mem_sdiff.mpr ⟨Finset.mem_insert_of_mem hlive, hx⟩)
  · exact hrest (Finset.mem_sdiff.mpr ⟨Finset.mem_insert_self _ _, fun hmem => hfresh (hown hmem)⟩)

theorem Leaks.allocate {A : Allocator B} {k : B → Prog B σ β}
    (hk : ∀ b, Leaks (insert b own) (k b)) : Leaks own (LiveBlocks.allocate A >>= k) := by
  intro h b h' hown hrun
  have hfresh := A.pick_fresh h.live
  obtain ⟨hkept, x, hx, hnew⟩ := hk (A.pick h.live) ⟨insert (A.pick h.live) h.live, h.data⟩ b h'
    (Finset.insert_subset_insert _ hown) hrun
  rw [Finset.insert_sdiff_insert, Finset.sdiff_insert_of_notMem hfresh] at hkept
  exact ⟨hkept, x, hx, fun hlive => hnew (Finset.mem_insert_of_mem hlive)⟩

/-- The rest of the program does not know the block that the first part has left behind. -/
theorem Leaks.bind (hm : Leaks ∅ m) (hk : ∀ a, FreesOnly own (k a)) : Leaks own (m >>= k) := by
  intro h b h' hown hrun
  obtain ⟨a, mid, hfirst, hrest⟩ := bind_returns hrun
  obtain ⟨hkept, x, hx, hnew⟩ := hm h a mid (Finset.empty_subset _) hfirst
  rw [Finset.sdiff_empty] at hkept
  have hend := hk a mid b h' hrest
  exact ⟨(Finset.sdiff_subset_sdiff hkept subset_rfl).trans hend, x,
    hend (Finset.mem_sdiff.mpr ⟨hx, fun hmem => hnew (hown hmem)⟩), hnew⟩

/-- The live blocks grow strictly. -/
theorem Leaks.ssubset (hm : Leaks ∅ m) {h h' : Heap B σ} {a : α} (hrun : m h = .ok (a, h')) :
    h.live ⊂ h'.live := by
  obtain ⟨hkept, x, hx, hnew⟩ := hm h a h' (Finset.empty_subset _) hrun
  rw [Finset.sdiff_empty] at hkept
  exact Finset.ssubset_iff_subset_ne.mpr ⟨hkept, fun heq => hnew (heq ▸ hx)⟩

end Rules

/-! ## Total correctness -/

/-- From data that meets `P`, with the blocks of `own` live, `m` returns, what it returns meets `Q`,
and no block is gone but those of `own`. -/
def Ensures (own : Finset B) (P : σ → Prop) (m : Prog B σ α) (Q : α → σ → Prop) : Prop :=
  ∀ h, own ⊆ h.live → P h.data →
    ∃ a h', m h = .ok (a, h') ∧ h.live \ own ⊆ h'.live ∧ Q a h'.data

section Triples

variable {own : Finset B} {P P' : σ → Prop} {m : Prog B σ α} {Q Q' : α → σ → Prop}
  {k : α → Prog B σ β} {R : β → σ → Prop}

theorem Computes.ensures {f : StateT σ Option α} (hm : Computes own m f)
    (h : ∀ d, P d → ∃ a d', f d = some (a, d') ∧ Q a d') : Ensures own P m Q := by
  intro heap hown hP
  obtain ⟨a, d, hf, hQ⟩ := h heap.data hP
  refine ⟨a, ⟨heap.live \ own, d⟩, ?_, subset_rfl, hQ⟩
  rw [hm heap hown, hf]

theorem ensures_pure (a : α) (h : ∀ d, P d → Q a d) : Ensures own P (pure a : Prog B σ α) Q :=
  fun heap _ hP => ⟨a, heap, rfl, Finset.sdiff_subset, h heap.data hP⟩

theorem Ensures.bind (hm : Ensures ∅ P m Q) (hk : ∀ a, Ensures own (Q a) (k a) R) :
    Ensures own P (m >>= k) R := by
  intro h hown hP
  obtain ⟨a, mid, hfirst, hkept, hQ⟩ := hm h (Finset.empty_subset _) hP
  rw [Finset.sdiff_empty] at hkept
  obtain ⟨b, h', hrest, hlive, hR⟩ := hk a mid (hown.trans hkept) hQ
  refine ⟨b, h', ?_, (Finset.sdiff_subset_sdiff hkept subset_rfl).trans hlive, hR⟩
  change m h >>= (fun p => k p.1 p.2) = _
  rw [hfirst]
  exact hrest

/-- The rest needs no block. -/
theorem Ensures.before (hm : Ensures own P m Q) (hk : ∀ a, Ensures ∅ (Q a) (k a) R) :
    Ensures own P (m >>= k) R := by
  intro h hown hP
  obtain ⟨a, mid, hfirst, hkept, hQ⟩ := hm h hown hP
  obtain ⟨b, h', hrest, hlive, hR⟩ := hk a mid (Finset.empty_subset _) hQ
  rw [Finset.sdiff_empty] at hlive
  refine ⟨b, h', ?_, hkept.trans hlive, hR⟩
  rw [bind_run hfirst]
  exact hrest

/-- The value of the first part is known. -/
theorem Ensures.step {a : α} (hm : Ensures ∅ P m fun b d => b = a ∧ P' d)
    (hk : Ensures own P' (k a) R) : Ensures own P (m >>= k) R := by
  apply hm.bind
  rintro b h hown ⟨rfl, hP⟩
  exact hk h hown hP

/-- What a run that has returned tells. -/
theorem Ensures.returned {h h' : Heap B σ} {a : α} (hm : Ensures own P m Q) (hown : own ⊆ h.live)
    (hP : P h.data) (hrun : m h = .ok (a, h')) : Q a h'.data := by
  obtain ⟨b, h'', hb, -, hQ⟩ := hm h hown hP
  rw [hrun] at hb
  cases hb
  exact hQ

/-- A part of the precondition that is not about the data. -/
theorem Ensures.given {p : Prop} (h : p → Ensures own P m Q) :
    Ensures own (fun d => p ∧ P d) m Q := fun heap hown hP => h hP.1 heap hown hP.2

theorem Ensures.weaken (hm : Ensures own P m Q) (h : ∀ a d, Q a d → Q' a d) :
    Ensures own P m Q' := by
  intro heap hown hP
  obtain ⟨a, h', hrun, hlive, hQ⟩ := hm heap hown hP
  exact ⟨a, h', hrun, hlive, h a h'.data hQ⟩

/-- A program has one result. -/
theorem Ensures.and (hm : Ensures own P m Q) (hm' : Ensures own P m Q') :
    Ensures own P m fun a d => Q a d ∧ Q' a d := by
  intro heap hown hP
  obtain ⟨a, h', hrun, hlive, hQ⟩ := hm heap hown hP
  exact ⟨a, h', hrun, hlive, hQ, hm'.returned hown hP hrun⟩

/-- Blocks that may be released may also stay. -/
theorem Ensures.mono {own' : Finset B} (hm : Ensures own' P m Q) (h : own' ⊆ own) :
    Ensures own P m Q := by
  intro heap hown hP
  obtain ⟨a, h', hrun, hlive, hQ⟩ := hm heap (h.trans hown) hP
  exact ⟨a, h', hrun, (Finset.sdiff_subset_sdiff subset_rfl h).trans hlive, hQ⟩

theorem Ensures.ite {c : Prop} [Decidable c] {n : Prog B σ α} (hm : c → Ensures own P m Q)
    (hn : ¬ c → Ensures own P n Q) : Ensures own P (if c then m else n) Q := by
  split
  · exact hm ‹_›
  · exact hn ‹_›

theorem Ensures.allocate {A : Allocator B} {k : B → Prog B σ β}
    (hk : ∀ b, b ∉ own → Ensures (insert b own) P (k b) R) :
    Ensures own P (LiveBlocks.allocate A >>= k) R := by
  intro h hown hP
  have hfresh := A.pick_fresh h.live
  have hrun := hk (A.pick h.live) (fun hmem => hfresh (hown hmem))
    ⟨insert (A.pick h.live) h.live, h.data⟩ (Finset.insert_subset_insert _ hown) hP
  rw [Finset.insert_sdiff_insert, Finset.sdiff_insert_of_notMem hfresh] at hrun
  exact hrun

theorem Ensures.release {b : B} {k : Unit → Prog B σ β} (hb : b ∉ own)
    (hk : Ensures own P (k ()) R) : Ensures (insert b own) P (LiveBlocks.release b >>= k) R := by
  intro h hown hP
  have hlive : b ∈ h.live := hown (Finset.mem_insert_self b own)
  have hrun := hk ⟨h.live.erase b, h.data⟩ (fun x hx => Finset.mem_erase.mpr
    ⟨fun hxb => hb (hxb ▸ hx), hown (Finset.mem_insert_of_mem hx)⟩) hP
  rw [Finset.erase_sdiff_comm, ← Finset.sdiff_insert] at hrun
  change ∃ a h', LiveBlocks.release b h >>= (fun p => k p.1 p.2) = .ok (a, h') ∧ _
  unfold LiveBlocks.release
  rw [if_pos hlive]
  exact hrun

end Triples

/-! ## One run

Total correctness from one heap, where the blocks that live are known before and after. -/

def Returns (m : Prog B σ α) (h : Heap B σ) (Q : α → Heap B σ → Prop) : Prop :=
  ∃ a h', m h = .ok (a, h') ∧ Q a h'

section Returning

variable {m : Prog B σ α} {h : Heap B σ} {Q : α → Heap B σ → Prop}

omit [DecidableEq B] in
theorem returns_pure (a : α) (ha : Q a h) : Returns (pure a) h Q := ⟨a, h, rfl, ha⟩

omit [DecidableEq B] in
theorem Returns.bind {k : α → Prog B σ β} {R : β → Heap B σ → Prop} (hm : Returns m h Q)
    (hk : ∀ a h', Q a h' → Returns (k a) h' R) : Returns (m >>= k) h R := by
  obtain ⟨a, mid, hfirst, hQ⟩ := hm
  obtain ⟨b, h', hrest, hR⟩ := hk a mid hQ
  exact ⟨b, h', (bind_run hfirst).trans hrest, hR⟩

omit [DecidableEq B] in
theorem Returns.weaken {Q' : α → Heap B σ → Prop} (hm : Returns m h Q)
    (hw : ∀ a h', Q a h' → Q' a h') : Returns m h Q' := by
  obtain ⟨a, h', hrun, hQ⟩ := hm
  exact ⟨a, h', hrun, hw a h' hQ⟩

omit [DecidableEq B] in
theorem Returns.result {a : α} {h' : Heap B σ} (hm : Returns m h Q) (hrun : m h = .ok (a, h')) :
    Q a h' := by
  obtain ⟨b, h'', hb, hQ⟩ := hm
  rw [hrun] at hb
  cases hb
  exact hQ

/-- No block is gone. -/
theorem Ensures.returns {P : σ → Prop} {R : α → σ → Prop} (hm : Ensures ∅ P m R) (hP : P h.data) :
    Returns m h fun a h' => h.live ⊆ h'.live ∧ R a h'.data := by
  obtain ⟨a, h', hrun, hkept, hR⟩ := hm h (Finset.empty_subset _) hP
  rw [Finset.sdiff_empty] at hkept
  exact ⟨a, h', hrun, hkept, hR⟩

theorem returns_allocate (A : Allocator B) (h : Heap B σ) :
    Returns (allocate A) h fun b h' => b ∉ h.live ∧ h' = ⟨insert b h.live, h.data⟩ :=
  ⟨_, _, rfl, A.pick_fresh h.live, rfl⟩

theorem returns_release {b : B} (hb : b ∈ h.live) :
    Returns (release b) h fun _ h' => h' = ⟨h.live.erase b, h.data⟩ :=
  ⟨(), _, if_pos hb, rfl⟩

/-- The blocks of `l` have been released. -/
structure Freed (h : Heap B σ) (l : List B) (h' : Heap B σ) : Prop where
  data : h'.data = h.data
  live (x : B) : x ∈ h.live → x ∉ l → x ∈ h'.live

omit [DecidableEq B] in
theorem freed_nil (h : Heap B σ) : Freed h [] h := ⟨rfl, fun _ hx _ => hx⟩

theorem Freed.release {l : List B} {h' : Heap B σ} {b : B} (hf : Freed h l h') (hb : b ∈ h.live)
    (hnew : b ∉ l) : Returns (LiveBlocks.release b) h' fun _ h'' => Freed h (b :: l) h'' := by
  apply (returns_release (hf.live b hb hnew)).weaken
  rintro _ _ rfl
  refine ⟨hf.data, fun x hx hxl => ?_⟩
  rw [List.mem_cons, not_or] at hxl
  exact Finset.mem_erase.mpr ⟨hxl.1, hf.live x hx hxl.2⟩

end Returning

end LiveBlocks
