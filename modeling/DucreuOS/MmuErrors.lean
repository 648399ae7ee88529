import DucreuOS.PageTable

/-! # Mapping without pages

`mmu_set` with the lock and with each store to a table entry. Any call of `page_zalloc` may return
NULL, on which `mmu_set` does not look. -/
namespace MmuErrors

open PageTable PointerTree

/-- `answers` is what `page_zalloc` returns from now on, 0 being NULL; after its last one it returns
NULL. The last store comes first. -/
structure Mmu where
  mem : ℕ → Word
  answers : List Word
  locked : Bool
  stores : List (ℕ × Word)

/-- Before a call, when nobody holds `kernel_mmu_table_lock`. -/
def start (mem : ℕ → Word) (answers : List Word) : Mmu := ⟨mem, answers, false, []⟩

def Mmu.store (s : Mmu) (addr : ℕ) (entry : Word) : Mmu :=
  { s with mem := Function.update s.mem addr entry, stores := (addr, entry) :: s.stores }

def mutexWait (s : Mmu) : Mmu := { s with locked := true }
def mutexPost (s : Mmu) : Mmu := { s with locked := false }

def pageZalloc (s : Mmu) : Word × Mmu :=
  match s.answers with
  | [] => (0, s)
  | p :: ps => (p, { s with mem := if p = 0#64 then s.mem else zeroPage s.mem p, answers := ps })

def nextTable (s : Mmu) (pt : Word) (i : Fin 512) : Word × Mmu :=
  let entry := s.mem (entryAddr pt i)
  if entry &&& PTEB_VALID = 0#64 then
    let (new_table, s) := pageZalloc s
    let entry := (new_table >>> 2) ||| PTEB_VALID
    (lower entry, s.store (entryAddr pt i) entry)
  else (lower entry, s)

def mmuSet (s : Mmu) (pt vaddr paddr bits : Word) : ℤ × Mmu :=
  let s := mutexWait s
  let (pt, s) := nextTable s pt (vpn vaddr 2)
  let (pt, s) := nextTable s pt (vpn vaddr 1)
  let s := s.store (entryAddr pt (vpn vaddr 0)) (leafBits paddr bits)
  (0, mutexPost s)

def mmuMap (s : Mmu) (pt vaddr paddr bits : Word) : ℤ × Mmu :=
  if bits &&& 0xe#64 = 0#64 then (-1, s) else mmuSet s pt vaddr paddr (bits ||| PTEB_VALID)

def mmuUnmap (s : Mmu) (pt vaddr : Word) : ℤ × Mmu := mmuSet s pt vaddr 0 0

inductive Call
  | mmu_map (vaddr paddr bits : Word)
  | mmu_unmap (vaddr : Word)

def Call.run (s : Mmu) (root : Word) : Call → ℤ × Mmu
  | .mmu_map vaddr paddr bits => mmuMap s root vaddr paddr bits
  | .mmu_unmap vaddr => mmuUnmap s root vaddr

def Call.vaddr : Call → Word
  | .mmu_map vaddr _ _ => vaddr
  | .mmu_unmap vaddr => vaddr

/-- The last-level entry that the call is to write. -/
def Call.entry : Call → Word
  | .mmu_map _ paddr bits => leafBits paddr (bits ||| PTEB_VALID)
  | .mmu_unmap _ => 0#64

/-- A valid entry of a lower table that lies at page 0. -/
def NullTable (entry : Word) : Prop :=
  entry &&& PTEB_VALID ≠ 0#64 ∧ entry &&& 0xe#64 = 0#64 ∧ lower entry = 0#64

instance (entry : Word) : Decidable (NullTable entry) := inferInstanceAs (Decidable (_ ∧ _ ∧ _))

/-- The call did what it was asked for and returned 0, or it returned an error and changed no
translation. In both cases no entry leads to a table at page 0 at any time, and the lock is free. -/
structure Handled (root : Word) (c : Call) (s : Mmu) (r : ℤ × Mmu) : Prop where
  outcome :
    (r.1 = 0 ∧ ∀ v, mmuTranslate r.2.mem root v =
      if SamePage v c.vaddr then translateEntry c.entry v else mmuTranslate s.mem root v) ∨
    (r.1 ≠ 0 ∧ ∀ v, mmuTranslate r.2.mem root v = mmuTranslate s.mem root v)
  noNull (x : ℕ × Word) : x ∈ r.2.stores → ¬NullTable x.2
  released : r.2.locked = false

/-- `mmu_map` without any of the R, W and X bits. -/
def Call.Refused : Call → Prop
  | .mmu_map _ _ bits => bits &&& 0xe#64 = 0#64
  | .mmu_unmap _ => False

/-- The answers of `page_zalloc` before its first NULL. -/
def granted (answers : List Word) : List Word := answers.takeWhile (· ≠ 0#64)

/-! ## The tables of the plain model -/

/-- The supply is what is granted. -/
def Mmu.machine (s : Mmu) : Machine := ⟨s.mem, granted s.answers⟩

variable {s : Mmu} {root t vaddr paddr bits : Word} {i : Fin 512}

theorem granted_nil {answers : List Word} (h : granted answers = []) :
    answers = [] ∨ ∃ ps, answers = 0#64 :: ps := by
  cases answers with
  | nil => exact Or.inl rfl
  | cons p ps =>
    by_cases hp : p = 0#64
    · exact Or.inr ⟨ps, by rw [hp]⟩
    · rw [granted, List.takeWhile_cons_of_pos (by simpa using hp)] at h
      exact absurd h (List.cons_ne_nil _ _)

theorem granted_cons {answers : List Word} (h : granted answers ≠ []) :
    ∃ p ps, answers = p :: ps ∧ p ≠ 0#64 ∧ granted answers = p :: granted ps := by
  cases answers with
  | nil => exact absurd rfl h
  | cons p ps =>
    by_cases hp : p = 0#64
    · rw [granted, List.takeWhile_cons_of_neg (by simpa using hp)] at h
      exact absurd rfl h
    · exact ⟨p, ps, rfl, hp, List.takeWhile_cons_of_pos (by simpa using hp)⟩

/-- One level of the walk where `page_zalloc` does not fail. -/
theorem nextTable_machine (hs : child s.mem t i = none → s.machine.pages ≠ []) :
    (nextTable s t i).1 = (PageTable.nextTable s.machine t i).1 ∧
      (nextTable s t i).2.machine = (PageTable.nextTable s.machine t i).2 := by
  by_cases hv : s.mem (entryAddr t i) &&& PTEB_VALID = 0#64
  · obtain ⟨p, ps, hanswers, hp, hgranted⟩ := granted_cons (hs (child_none hv))
    simp [nextTable, PageTable.nextTable, pageZalloc, PageTable.pageZalloc, Mmu.machine, Mmu.store,
      hanswers, hp, hv, hanswers ▸ hgranted]
  · simp [nextTable, PageTable.nextTable, Mmu.machine, hv]

/-- Behind a first level that does not fail, the second fails where the plain model's does. -/
theorem second_level (hfirst : child s.mem root (vpn vaddr 2) = none → s.machine.pages ≠ []) :
    (child (nextTable (mutexWait s) root (vpn vaddr 2)).2.mem
        (nextTable (mutexWait s) root (vpn vaddr 2)).1 (vpn vaddr 1) = none →
      (nextTable (mutexWait s) root (vpn vaddr 2)).2.machine.pages ≠ []) ↔
        Supplied root vaddr s.machine := by
  obtain ⟨ht, hm⟩ := nextTable_machine (s := mutexWait s) hfirst
  have hmem : (nextTable (mutexWait s) root (vpn vaddr 2)).2.mem
      = (PageTable.nextTable s.machine root (vpn vaddr 2)).2.mem := congrArg Machine.mem hm
  rw [hm, hmem, ht]
  exact ⟨fun hsecond => ⟨hfirst, hsecond⟩, Supplied.second⟩

/-- Where every call of `page_zalloc` returns a page, the tables are those of the plain model. -/
theorem mmuSet_machine (hs : Supplied root vaddr s.machine) :
    (mmuSet s root vaddr paddr bits).2.mem
      = (PageTable.mmuSet s.machine root vaddr paddr bits).mem := by
  obtain ⟨ht, hm⟩ := nextTable_machine (s := mutexWait s) hs.first
  have hm' : (nextTable (mutexWait s) root (vpn vaddr 2)).2.machine
      = (PageTable.nextTable s.machine root (vpn vaddr 2)).2 := hm
  have ht' : (nextTable (mutexWait s) root (vpn vaddr 2)).1
      = (PageTable.nextTable s.machine root (vpn vaddr 2)).1 := ht
  obtain ⟨hu, hn⟩ := nextTable_machine ((second_level hs.first).mpr hs)
  rw [hm', ht'] at hu hn
  have hmem := congrArg Machine.mem hn
  simp only [mmuSet, PageTable.mmuSet, mutexPost, Mmu.store]
  rw [← hu, ← hmem, ht']
  rfl

/-! ## The stores -/

theorem nextTable_stores : s.stores ⊆ (nextTable s t i).2.stores := by
  have hz : (pageZalloc s).2.stores = s.stores := by
    unfold pageZalloc
    split <;> rfl
  by_cases hv : s.mem (entryAddr t i) &&& PTEB_VALID = 0#64
  · simp only [nextTable, if_pos hv]
    intro x hx
    exact List.mem_cons_of_mem _ (hz ▸ hx)
  · simp only [nextTable, if_neg hv]
    exact List.Subset.refl _

/-- Without a page the entry leads to page 0. -/
theorem nextTable_null (hc : child s.mem t i = none) (hnone : s.machine.pages = []) :
    ∃ x ∈ (nextTable s t i).2.stores, NullTable x.2 := by
  have hv : s.mem (entryAddr t i) &&& PTEB_VALID = 0#64 := by
    by_contra hv
    exact Option.some_ne_none _ ((child_some hv).symm.trans hc)
  have hz : (pageZalloc s).1 = 0#64 := by
    unfold pageZalloc
    rcases granted_nil hnone with h | ⟨ps, h⟩
    · rw [h]
      rfl
    · rw [h]
  refine ⟨(entryAddr t i, ((pageZalloc s).1 >>> 2) ||| PTEB_VALID), ?_, ?_⟩
  · simp only [nextTable, if_pos hv]
    exact List.mem_cons_self
  · rw [hz]
    change NullTable (0#64 >>> 2 ||| PTEB_VALID)
    decide

/-- With a page it does not. -/
theorem nextTable_noNull (hs : child s.mem t i = none → s.machine.pages ≠ [])
    (halign : ∀ p ∈ s.machine.pages, Aligned p) (hno : ∀ x ∈ s.stores, ¬NullTable x.2) :
    ∀ x ∈ (nextTable s t i).2.stores, ¬NullTable x.2 := by
  unfold nextTable
  by_cases hv : s.mem (entryAddr t i) &&& PTEB_VALID = 0#64
  · obtain ⟨p, ps, hanswers, hp, hgranted⟩ := granted_cons (hs (child_none hv))
    have hpage : Aligned p := halign p (by simp [Mmu.machine, hgranted])
    simp only [if_pos hv, pageZalloc, hanswers]
    intro x hx
    rcases List.mem_cons.1 hx with rfl | hx
    · rintro ⟨-, -, hnull⟩
      exact hp ((lower_entry hpage).symm.trans hnull)
    · exact hno x hx
  · simp only [if_neg hv]
    exact hno

/-- A last-level entry leads to no table. -/
theorem entry_noNull (c : Call) (hc : ¬c.Refused) : ¬NullTable c.entry := by
  cases c with
  | mmu_map vaddr paddr bits => exact fun h => leaf_rwx hc h.2.1
  | mmu_unmap vaddr => exact fun h => h.1 (by simp [Call.entry])

/-- A failed `page_zalloc` leaves an entry that leads to page 0. -/
theorem mmuSet_null (paddr bits : Word) (hs : ¬Supplied root vaddr s.machine) :
    ∃ x ∈ (mmuSet s root vaddr paddr bits).2.stores, NullTable x.2 := by
  have hkeep (x : ℕ × Word)
      (hx : x ∈ (nextTable (nextTable (mutexWait s) root (vpn vaddr 2)).2
        (nextTable (mutexWait s) root (vpn vaddr 2)).1 (vpn vaddr 1)).2.stores) :
      x ∈ (mmuSet s root vaddr paddr bits).2.stores := List.mem_cons_of_mem _ hx
  by_cases hfirst : child s.mem root (vpn vaddr 2) = none → s.machine.pages ≠ []
  · have hsecond := mt (second_level hfirst).mp hs
    obtain ⟨hc, hnil⟩ := Classical.not_imp.1 hsecond
    obtain ⟨x, hx, hnull⟩ := nextTable_null hc (not_not.1 hnil)
    exact ⟨x, hkeep x hx, hnull⟩
  · obtain ⟨hc, hnil⟩ := Classical.not_imp.1 hfirst
    obtain ⟨x, hx, hnull⟩ := nextTable_null (s := mutexWait s) hc (not_not.1 hnil)
    exact ⟨x, hkeep x (nextTable_stores hx), hnull⟩

/-- Otherwise none does. -/
theorem mmuSet_noNull (hs : Supplied root vaddr s.machine)
    (hf : FreshPages s.mem root s.machine.pages) (hno : ∀ x ∈ s.stores, ¬NullTable x.2)
    (he : ¬NullTable (leafBits paddr bits)) :
    ∀ x ∈ (mmuSet s root vaddr paddr bits).2.stores, ¬NullTable x.2 := by
  have hm : (nextTable (mutexWait s) root (vpn vaddr 2)).2.machine
      = (PageTable.nextTable s.machine root (vpn vaddr 2)).2 :=
    (nextTable_machine (s := mutexWait s) hs.first).2
  have hfirst := nextTable_noNull (s := mutexWait s) hs.first hf.aligned hno
  have hsuffix := (nextTable_suffix s.machine root (vpn vaddr 2)).subset
  rw [← hm] at hsuffix
  have hsecond := nextTable_noNull ((second_level hs.first).mpr hs) (fun p hp => hf.aligned p (hsuffix hp)) hfirst
  intro x hx
  rcases List.mem_cons.1 hx with rfl | hx
  · exact he
  · exact hsecond x hx

theorem mmuSet_locked : (mmuSet s root vaddr paddr bits).2.locked = false := rfl

/-! ## One call -/

theorem Call.run_set (c : Call) (s : Mmu) (root : Word) (hc : ¬c.Refused) : ∃ paddr bits,
    c.entry = leafBits paddr bits ∧ c.run s root = mmuSet s root c.vaddr paddr bits := by
  cases c with
  | mmu_map vaddr paddr bits => exact ⟨paddr, bits ||| PTEB_VALID, rfl, if_neg hc⟩
  | mmu_unmap vaddr => exact ⟨0, 0, rfl, rfl⟩

theorem Call.run_refused {c : Call} (hc : c.Refused) : c.run s root = (-1, s) := by
  cases c with
  | mmu_map vaddr paddr bits => exact if_pos hc
  | mmu_unmap vaddr => exact hc.elim

/-- A call is handled if and only if it is refused, or `page_zalloc` returns a page for each table
that is missing on the way to its entry. -/
theorem call_handled_iff (mem : ℕ → Word) (root : Word) (answers : List Word) (c : Call)
    (hT : Tree mem root) (hf : FreshPages mem root (answers.filter (· ≠ 0#64))) :
    Handled root c (start mem answers) (c.run (start mem answers) root) ↔
      c.Refused ∨ missing mem root c.vaddr ≤ (granted answers).length := by
  have hsub : List.Sublist (granted answers) (answers.filter (· ≠ 0#64)) := by
    have hself : (granted answers).filter (· ≠ 0#64) = granted answers :=
      List.filter_eq_self.2 fun p hp => List.mem_takeWhile_imp (l := answers) hp
    rw [← hself]
    exact (List.takeWhile_sublist _).filter _
  have hf' : FreshPages mem root (start mem answers).machine.pages :=
    ⟨hf.nodup.sublist hsub, fun p hp => hf.aligned p (hsub.subset hp),
      fun p hp => hf.fresh p (hsub.subset hp)⟩
  have hsupplied := supplied_iff (s := (start mem answers).machine) hT hf' c.vaddr
  by_cases hc : c.Refused
  · refine iff_of_true ?_ (Or.inl hc)
    rw [Call.run_refused hc]
    exact ⟨Or.inr ⟨by simp, fun _ => rfl⟩, by simp [start], rfl⟩
  · rw [or_iff_right hc]
    obtain ⟨paddr, bits, hentry, hrun⟩ := c.run_set (start mem answers) root hc
    rw [hrun]
    constructor
    · intro h
      by_contra hno
      obtain ⟨x, hx, hnull⟩ := mmuSet_null paddr bits (mt hsupplied.1 hno)
      exact h.noNull x hx hnull
    · intro hle
      have hs := hsupplied.2 hle
      obtain ⟨hT', -, hleaf, -⟩ := mmuSet_supplied hT hf' c.vaddr paddr bits hs
      refine ⟨Or.inl ⟨rfl, fun v => ?_⟩, ?_, mmuSet_locked⟩
      · rw [mmuSet_machine hs, hT'.translate_eq, hleaf, hentry]
        split_ifs with hv
        · rfl
        · exact (hT.translate_eq v).symm
      · exact mmuSet_noNull hs hf' (by simp [start]) (hentry ▸ entry_noNull c hc)

theorem zeroed_tree : Tree (fun _ => 0) 0x80001000#64 :=
  zeroed_root_tree (by decide) fun _ => rfl

/-- The first mapping of a table with a page for only one of its two tables. -/
theorem call_handled_iff_one_page :
    Handled 0x80001000#64 (.mmu_map 0x120000000#64 0x80004000#64 (PTEB_READ ||| PTEB_WRITE))
        (start (fun _ => 0) [0x80002000#64, 0#64])
        (Call.run (start (fun _ => 0) [0x80002000#64, 0#64]) 0x80001000#64
          (.mmu_map 0x120000000#64 0x80004000#64 (PTEB_READ ||| PTEB_WRITE))) ↔
      Call.Refused (.mmu_map 0x120000000#64 0x80004000#64 (PTEB_READ ||| PTEB_WRITE)) ∨
        missing (fun _ => 0) 0x80001000#64 0x120000000#64
          ≤ (granted [0x80002000#64, 0#64]).length :=
  call_handled_iff _ _ _ _ zeroed_tree (zeroed_root_fresh (fun _ => rfl) (by decide)
    (List.forall_iff_forall_mem.1 (by decide)) (by decide))

/-- With no page left an unmapping returns 0 and leaves an entry that leads to page 0. -/
theorem unmap_without_pages : ¬ ∀ (mem : ℕ → Word) (root : Word) (answers : List Word) (c : Call),
    Tree mem root → FreshPages mem root (answers.filter (· ≠ 0#64)) →
    Handled root c (start mem answers) (c.run (start mem answers) root) := by
  intro h
  have hhandled := h (fun _ => 0) 0x80001000#64 [] (.mmu_unmap 0x120000000#64) zeroed_tree
    (zeroed_root_fresh (fun _ => rfl) (by decide) (by simp) (by decide))
  have hnull : ∃ x ∈ (Call.run (start (fun _ => 0) []) 0x80001000#64
      (.mmu_unmap 0x120000000#64)).2.stores, NullTable x.2 := by
    decide +kernel
  obtain ⟨x, hx, hnull⟩ := hnull
  exact hhandled.noNull x hx hnull

end MmuErrors
