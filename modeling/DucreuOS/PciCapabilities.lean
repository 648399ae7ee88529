import DucreuOS.Library.ByteMemory
import DucreuOS.Library.ForwardList

/-! # PCI capabilities

`pcie_init_bars` on the configuration space of a device, up to the six allocations that it hands
to `pcie_add_to_bar_list`. An access outside of one of its tables has no result. -/
namespace Pcie

open ByteMemory ForwardList

abbrev Word := BitVec 32

def VIRTIO_CAP_CFG_PCI : ℕ := 5

/-- `0xFFFFFFFF`, for what is not set. -/
def unset : Word := 0xFFFFFFFF

/-- `char notes[200]`, up to its terminator. -/
structure Notes where
  chars : List Byte
  no_nul : 0 ∉ chars
  fits : chars.length < 200

def noNotes : Notes := ⟨[], by decide, by decide⟩

/-- `PCIe_bar_allocation_t`; the device is the address of its configuration space. -/
structure Allocation where
  whichBar : Word
  virtioRegisterOffsets : ℕ → Word
  ec : ℕ
  notes : Notes

/-! ## The configuration space -/

section Config

variable (config : Mem)

/-- `capes_pointer` -/
def capesPointer : ℕ := (config 52).toNat

def statusReg : BitVec 16 := load16 config 6

/-- `ec->status_reg & ECAM_STATUS_CAPABILITIES_BIT` -/
def hasCapabilities : Bool := (statusReg config).getLsbD 4

variable (cp : ℕ)

def capId : Byte := config cp

def nextOffset : ℕ := (config (cp + 1)).toNat

/-- The fields of a `virtio_pci_cap_t`. -/
def configType : ℕ := (config (cp + 3)).toNat

def capBar : ℕ := (config (cp + 4)).toNat

def capOffset : Word := load32 config (cp + 8)

def vendorSpecific : Bool := capId config cp = 0x09

end Config

/-- The local tables of `pcie_init_bars`; `considered` is the history of the capabilities that
have been looked at. -/
structure Tables where
  offsets : ℕ → Word
  bars : ℕ → Word
  considered : List ℕ

/-- `config_types_offsets[index] = offset; config_types_bars[index] = bar;` -/
def Tables.record (f : Tables) (index : ℕ) (offset bar : Word) : Option Tables :=
  if index < 6 then
    some { f with
      offsets := Function.update f.offsets index offset
      bars := Function.update f.bars index bar }
  else none

/-- The body of the loop behind the step to the next capability. -/
def consider (config : Mem) (f : Tables) (cp : ℕ) : Option Tables :=
  let f := { f with considered := f.considered ++ [cp] }
  if vendorSpecific config cp then
    f.record (configType config cp) (capOffset config cp) (BitVec.ofNat 32 (capBar config cp))
  else some f

/-- `while(cp != capabilities_base)`, with offsets from `capabilities_base` -/
def walk (config : Mem) : ℕ → ℕ → Tables → Option Tables
  | 0, _, _ => none
  | n + 1, cp, f =>
    if cp = 0 then some f
    else (consider config f (nextOffset config cp)).bind (walk config n (nextOffset config cp))

def yourCode : Notes where
  chars := "your code is messy, bud".toList.map fun c => BitVec.ofNat 8 c.toNat
  no_nul := by decide
  fits := by decide

/-- One round of the loop over the config types. -/
def allocate (ec : ℕ) (f : Tables) (allocations : ℕ → Allocation) (i : ℕ) :
    Option (ℕ → Allocation) :=
  if i = VIRTIO_CAP_CFG_PCI then some allocations
  else
    let bar := f.bars i
    if bar ≠ unset then
      if bar.toNat < 6 then
        let a := allocations bar.toNat
        some (Function.update allocations bar.toNat
          ⟨bar, Function.update a.virtioRegisterOffsets i (f.offsets i), ec, yourCode⟩)
      else none
    else some allocations

/-- The tables as the first loop leaves them, with `heap` in the fields it does not set. -/
def unsetTables : Tables := ⟨fun _ => unset, fun _ => unset, []⟩

def unsetAllocations (heap : ℕ → ℕ) (i : ℕ) : Allocation := ⟨unset, fun _ => unset, heap i, noNotes⟩

/-- What the loops of `pcie_init_bars` leave, and how many of the allocations it hands to
`pcie_add_to_bar_list`. -/
structure Outcome where
  tables : Tables
  allocations : ℕ → Allocation
  handed : ℕ

def initBars (fuel ec : ℕ) (config : Mem) (heap : ℕ → ℕ) : Option Outcome :=
  if hasCapabilities config then do
    let f ← walk config fuel (capesPointer config) unsetTables
    let allocations ← (List.range 6).foldlM (allocate ec f) (unsetAllocations heap)
    some ⟨f, allocations, 6⟩
  else some ⟨unsetTables, unsetAllocations heap, 0⟩

/-! ## The capability list -/

/-- The offset of the next capability, 0 at the end. -/
def link (offset : ℕ) : Option ℕ := if offset = 0 then none else some offset

/-- The capabilities of a device are those of `l`. -/
def IsCapabilityList (config : Mem) (l : List ℕ) : Prop :=
  Follows (fun cp => link (nextOffset config cp)) (link (capesPointer config)) l

/-- A vendor-specific capability with this config type. -/
def HasType (config : Mem) (t cp : ℕ) : Prop :=
  vendorSpecific config cp = true ∧ configType config cp = t

instance (config : Mem) (t cp : ℕ) : Decidable (HasType config t cp) :=
  inferInstanceAs (Decidable (_ ∧ _))

/-- The last capability of a type. -/
def lastOf (config : Mem) (t : ℕ) (l : List ℕ) : Option ℕ :=
  (l.filter fun cp => HasType config t cp).getLast?

/-- What `pcie_init_bars` is to make of the list `l`. -/
structure RecordsList (config : Mem) (ec : ℕ) (l : List ℕ) (o : Outcome) : Prop where
  considers : ∀ cp ∈ l, vendorSpecific config cp = true → cp ∈ o.tables.considered
  records : ∀ t, 1 ≤ t → t ≤ 4 → (∃ cp ∈ l, HasType config t cp) →
    ∃ cp ∈ l, HasType config t cp ∧
      o.tables.bars t = BitVec.ofNat 32 (capBar config cp) ∧
      o.tables.offsets t = capOffset config cp ∧
      (o.allocations (capBar config cp)).whichBar = BitVec.ofNat 32 (capBar config cp) ∧
      (o.allocations (capBar config cp)).ec = ec ∧
      (o.allocations (capBar config cp)).virtioRegisterOffsets t = capOffset config cp
  unrecorded : ∀ t, 1 ≤ t → t ≤ 4 → (¬ ∃ cp ∈ l, HasType config t cp) →
    o.tables.bars t = unset ∧ ∀ b < 6, (o.allocations b).virtioRegisterOffsets t = unset

/-- What the loop considers of a list: all but the first, and then the header of the device. -/
def considered : List ℕ → List ℕ
  | [] => []
  | _ :: l => l ++ [0]

/-- The lists of which the code makes what it should: the first capability is not vendor specific,
the types and bars fit the tables, and the header, read as a capability, says nothing else. -/
structure Harmless (config : Mem) (l : List ℕ) : Prop where
  first : ∀ cp ∈ l.head?, vendorSpecific config cp = false
  types : ∀ cp ∈ considered l, vendorSpecific config cp = true → configType config cp < 6
  bars : ∀ t < 5, ∀ cp ∈ lastOf config t (considered l), capBar config cp < 6
  header : l ≠ [] → ∀ t, 1 ≤ t → t ≤ 4 → HasType config t 0 → ∃ cp ∈ l, HasType config t cp ∧
    capBar config cp = capBar config 0 ∧ capOffset config cp = capOffset config 0

variable {config : Mem} {f f' : Tables} {l : List ℕ} {cp t fuel : ℕ}

theorem link_eq_none {offset : ℕ} : link offset = none ↔ offset = 0 := by
  by_cases h : offset = 0 <;> simp [link, h]

theorem link_eq_some {offset p : ℕ} : link offset = some p ↔ offset = p ∧ p ≠ 0 := by
  by_cases h : offset = 0
  · simp only [link, h, if_true, reduceCtorEq, false_iff]
    rintro ⟨rfl, hne⟩
    exact hne rfl
  · simp only [link, h, if_false, Option.some.injEq]
    exact ⟨fun e => ⟨e, e ▸ h⟩, And.left⟩

/-- The walk ends and considers the list from its second capability on, and the header. -/
theorem walk_eq (h : Follows (fun cp => link (nextOffset config cp)) (link cp) l)
    (hf : l.length < fuel) :
    walk config fuel cp f = (considered l).foldlM (consider config) f := by
  induction l generalizing cp f fuel with
  | nil =>
    obtain ⟨n, rfl⟩ := Nat.exists_eq_succ_of_ne_zero (Nat.ne_of_gt hf)
    rw [walk, if_pos (link_eq_none.1 h)]
    rfl
  | cons p l ih =>
    obtain ⟨n, rfl⟩ := Nat.exists_eq_succ_of_ne_zero (Nat.ne_of_gt (Nat.zero_lt_of_lt hf))
    obtain ⟨rfl, hne⟩ := link_eq_some.1 h.1
    have hl : Follows (fun cp => link (nextOffset config cp)) (link (nextOffset config cp)) l :=
      h.2
    have hn : l.length < n := Nat.lt_of_succ_lt_succ hf
    rw [walk, if_neg hne]
    cases l with
    | nil =>
      have hzero : nextOffset config cp = 0 := link_eq_none.1 hl
      have hrest (g : Tables) : walk config n (nextOffset config cp) g = some g := ih hl hn
      rw [hzero] at hrest ⊢
      simp only [hrest]
      rfl
    | cons q l =>
      have hrest (g : Tables) : walk config n (nextOffset config cp) g
          = (l ++ [0]).foldlM (consider config) g := ih hl hn
      obtain ⟨hq, -⟩ := link_eq_some.1 hl.1
      rw [hq] at hrest ⊢
      simp only [hrest]
      rfl

/-! ## The first loop -/

theorem lastOf_append (l' : List ℕ) :
    lastOf config t (l ++ l') = (lastOf config t l').or (lastOf config t l) := by
  rw [lastOf, List.filter_append, List.getLast?_append]
  rfl

theorem lastOf_singleton :
    lastOf config t [cp] = if HasType config t cp then some cp else none := by
  by_cases h : HasType config t cp <;> simp [lastOf, h]

theorem mem_of_lastOf (h : cp ∈ lastOf config t l) : cp ∈ l ∧ HasType config t cp := by
  have := List.mem_filter.1 (List.mem_of_getLast? h)
  exact ⟨this.1, of_decide_eq_true this.2⟩

theorem lastOf_eq_none : lastOf config t l = none ↔ ¬ ∃ cp ∈ l, HasType config t cp := by
  rw [lastOf, List.getLast?_eq_none_iff, List.filter_eq_nil_iff]
  simp only [decide_eq_true_eq, not_exists, not_and]

/-- The tables after a list of capabilities with types that fit. -/
def recorded (config : Mem) (f : Tables) (l : List ℕ) : Tables where
  offsets t := ((lastOf config t l).map (capOffset config)).getD (f.offsets t)
  bars t := ((lastOf config t l).map fun cp => BitVec.ofNat 32 (capBar config cp)).getD (f.bars t)
  considered := f.considered ++ l

theorem recorded_append (l' : List ℕ) :
    recorded config f (l ++ l') = recorded config (recorded config f l) l' := by
  have hor (t : ℕ) (g : ℕ → Word) (d : Word) : ((lastOf config t (l ++ l')).map g).getD d
      = ((lastOf config t l').map g).getD (((lastOf config t l).map g).getD d) := by
    rw [lastOf_append]
    cases lastOf config t l' <;> rfl
  simp only [recorded, hor, List.append_assoc]

theorem consider_eq : consider config f cp =
    if vendorSpecific config cp = true ∧ ¬ configType config cp < 6 then none
    else some (recorded config f [cp]) := by
  by_cases hv : vendorSpecific config cp = true
  · by_cases ht : configType config cp < 6
    · have hupdate (g : ℕ → Word) (x : ℕ → Word) (t : ℕ) :
          Function.update g (configType config cp) (x cp) t
            = ((lastOf config t [cp]).map x).getD (g t) := by
        rw [lastOf_singleton]
        by_cases h : t = configType config cp
        · rw [h, Function.update_self, if_pos ⟨hv, rfl⟩]
          rfl
        · rw [Function.update_of_ne h, if_neg fun hh => h hh.2.symm]
          rfl
      simp only [consider, hv, if_true, Tables.record, ht, recorded, not_true_eq_false, and_false,
        if_false, Option.some.injEq, Tables.mk.injEq, and_true]
      exact ⟨funext (hupdate f.offsets (capOffset config)),
        funext (hupdate f.bars fun cp => BitVec.ofNat 32 (capBar config cp))⟩
    · simp [consider, hv, ht, Tables.record]
  · have hnone (t : ℕ) : lastOf config t [cp] = none := by
      rw [lastOf_singleton, if_neg fun h => hv h.1]
    simp [consider, hv, recorded, hnone]

theorem foldlM_consider : l.foldlM (consider config) f = some f' ↔
    (∀ cp ∈ l, vendorSpecific config cp = true → configType config cp < 6) ∧
      recorded config f l = f' := by
  induction l generalizing f with
  | nil => simp [recorded, lastOf]
  | cons cp l ih =>
    have happend : recorded config f (cp :: l) = recorded config (recorded config f [cp]) l :=
      recorded_append (l := [cp]) l
    rw [List.foldlM_cons, consider_eq, happend]
    by_cases hbad : vendorSpecific config cp = true ∧ ¬ configType config cp < 6
    · rw [if_pos hbad]
      constructor
      · intro h
        cases h
      · rintro ⟨hall, -⟩
        exact absurd (hall cp List.mem_cons_self hbad.1) hbad.2
    · rw [if_neg hbad]
      simp only [Option.bind_eq_bind, Option.bind_some, ih, List.forall_mem_cons]
      tauto

/-! ## The second loop -/

variable {ec i : ℕ} {A A' : ℕ → Allocation}

/-- One config type changes nothing for the other types and nothing of an allocation already
made. -/
structure Allocated (ec : ℕ) (f : Tables) (i : ℕ) (A A' : ℕ → Allocation) : Prop where
  other : ∀ t, t ≠ i → ∀ b, (A' b).virtioRegisterOffsets t = (A b).virtioRegisterOffsets t
  skipped : i = VIRTIO_CAP_CFG_PCI ∨ f.bars i = unset → A' = A
  made : i ≠ VIRTIO_CAP_CFG_PCI → f.bars i ≠ unset → (f.bars i).toNat < 6 ∧
    (A' (f.bars i).toNat).whichBar = f.bars i ∧ (A' (f.bars i).toNat).ec = ec ∧
    (A' (f.bars i).toNat).virtioRegisterOffsets i = f.offsets i
  kept : ∀ bar : Word, (A bar.toNat).whichBar = bar ∧ (A bar.toNat).ec = ec →
    (A' bar.toNat).whichBar = bar ∧ (A' bar.toNat).ec = ec

theorem allocate_spec (h : allocate ec f A i = some A') : Allocated ec f i A A' := by
  by_cases hskip : i = VIRTIO_CAP_CFG_PCI
  · rw [allocate, if_pos hskip] at h
    obtain rfl := Option.some.inj h
    exact ⟨fun _ _ _ => rfl, fun _ => rfl, fun hne => absurd hskip hne, fun _ h => h⟩
  · by_cases hunset : f.bars i = unset
    · simp only [allocate, if_neg hskip, hunset, ne_eq, not_true_eq_false, if_false] at h
      obtain rfl := Option.some.inj h
      exact ⟨fun _ _ _ => rfl, fun _ => rfl, fun _ hne => absurd hunset hne, fun _ h => h⟩
    · by_cases hbar : (f.bars i).toNat < 6
      · simp only [allocate, if_neg hskip, ne_eq, hunset, not_false_eq_true, if_true, hbar,
          Option.some.injEq] at h
        subst h
        refine ⟨fun t ht b => ?_, fun hor => ?_, fun _ _ => ?_, fun bar hkept => ?_⟩
        · by_cases hb : b = (f.bars i).toNat
          · rw [hb, Function.update_self]
            exact Function.update_of_ne ht ..
          · rw [Function.update_of_ne hb]
        · rcases hor with h | h
          · exact absurd h hskip
          · exact absurd h hunset
        · rw [Function.update_self]
          exact ⟨hbar, rfl, rfl, Function.update_self ..⟩
        · by_cases hb : bar.toNat = (f.bars i).toNat
          · rw [hb, Function.update_self]
            exact ⟨(BitVec.eq_of_toNat_eq hb).symm, rfl⟩
          · rwa [Function.update_of_ne hb]
      · simp [allocate, hskip, hunset, hbar] at h

theorem allocate_isSome : (∃ A', allocate ec f A i = some A') ↔
    (i ≠ VIRTIO_CAP_CFG_PCI → f.bars i ≠ unset → (f.bars i).toNat < 6) := by
  by_cases hskip : i = VIRTIO_CAP_CFG_PCI
  · simp [allocate, hskip]
  · by_cases hunset : f.bars i = unset
    · simp [allocate, hskip, hunset]
    · by_cases hbar : (f.bars i).toNat < 6 <;> simp [allocate, hskip, hunset, hbar]

/-- The config types that are handed on. -/
def Handed (f : Tables) (t : ℕ) : Prop := t ≠ VIRTIO_CAP_CFG_PCI ∧ f.bars t ≠ unset

theorem foldlM_allocate_isSome {types : List ℕ} : (∃ A', types.foldlM (allocate ec f) A = some A') ↔
    ∀ t ∈ types, Handed f t → (f.bars t).toNat < 6 := by
  induction types generalizing A with
  | nil => simp
  | cons i types ih =>
    rw [List.forall_mem_cons, List.foldlM_cons]
    simp only [Option.bind_eq_bind, Option.bind_eq_some_iff]
    constructor
    · rintro ⟨A', A₁, h₁, h⟩
      exact ⟨fun hi => allocate_isSome.1 ⟨A₁, h₁⟩ hi.1 hi.2, ih.1 ⟨A', h⟩⟩
    · rintro ⟨hi, hrest⟩
      obtain ⟨A₁, h₁⟩ := allocate_isSome.2 fun h5 hne => hi ⟨h5, hne⟩
      obtain ⟨A', h⟩ := ih.2 hrest
      exact ⟨A', A₁, h₁, h⟩

theorem foldlM_allocate_other {types : List ℕ} (h : types.foldlM (allocate ec f) A = some A')
    (ht : t ∈ types → ¬ Handed f t) (b : ℕ) :
    (A' b).virtioRegisterOffsets t = (A b).virtioRegisterOffsets t := by
  induction types generalizing A with
  | nil =>
    obtain rfl := Option.some.inj h
    rfl
  | cons i types ih =>
    rw [List.foldlM_cons, Option.bind_eq_bind, Option.bind_eq_some_iff] at h
    obtain ⟨A₁, h₁, h⟩ := h
    have hstep := allocate_spec h₁
    rw [ih h fun hm => ht (List.mem_cons_of_mem i hm)]
    by_cases hti : t = i
    · subst hti
      have hskip := ht List.mem_cons_self
      rw [hstep.skipped]
      rwa [Handed, not_and_or, not_not, not_not] at hskip
    · exact hstep.other t hti b

theorem foldlM_allocate_kept {types : List ℕ} (h : types.foldlM (allocate ec f) A = some A')
    {bar : Word} (hbar : (A bar.toNat).whichBar = bar ∧ (A bar.toNat).ec = ec) :
    (A' bar.toNat).whichBar = bar ∧ (A' bar.toNat).ec = ec := by
  induction types generalizing A with
  | nil =>
    obtain rfl := Option.some.inj h
    exact hbar
  | cons i types ih =>
    rw [List.foldlM_cons, Option.bind_eq_bind, Option.bind_eq_some_iff] at h
    obtain ⟨A₁, h₁, h⟩ := h
    exact ih h ((allocate_spec h₁).kept bar hbar)

theorem foldlM_allocate_made {types : List ℕ} (h : types.foldlM (allocate ec f) A = some A')
    (hnd : types.Nodup) (ht : t ∈ types) (hhanded : Handed f t) :
    (A' (f.bars t).toNat).whichBar = f.bars t ∧ (A' (f.bars t).toNat).ec = ec ∧
      (A' (f.bars t).toNat).virtioRegisterOffsets t = f.offsets t := by
  induction types generalizing A with
  | nil => cases ht
  | cons i types ih =>
    rw [List.foldlM_cons, Option.bind_eq_bind, Option.bind_eq_some_iff] at h
    obtain ⟨A₁, h₁, h⟩ := h
    obtain ⟨hi, hnd⟩ := List.nodup_cons.1 hnd
    rcases List.mem_cons.1 ht with rfl | ht
    · obtain ⟨-, hbar, hec, hoffset⟩ := (allocate_spec h₁).made hhanded.1 hhanded.2
      obtain ⟨hbar', hec'⟩ := foldlM_allocate_kept h ⟨hbar, hec⟩
      refine ⟨hbar', hec', ?_⟩
      rw [foldlM_allocate_other h (fun hm => absurd hm hi), hoffset]
    · exact ih h hnd ht

/-! ## The whole call -/

theorem capBar_toNat (config : Mem) (cp : ℕ) :
    (BitVec.ofNat 32 (capBar config cp)).toNat = capBar config cp := by
  have : capBar config cp < 2 ^ 8 := (config (cp + 4)).isLt
  rw [BitVec.toNat_ofNat, Nat.mod_eq_of_lt (by omega)]

theorem capBar_ne_unset : BitVec.ofNat 32 (capBar config cp) ≠ unset := by
  have : capBar config cp < 2 ^ 8 := (config (cp + 4)).isLt
  intro h
  have hnat := congrArg BitVec.toNat h
  rw [capBar_toNat] at hnat
  change capBar config cp = 4294967295 at hnat
  omega

theorem recorded_bars (config : Mem) (l : List ℕ) (t : ℕ) :
    (∃ cp, lastOf config t l = some cp ∧
        (recorded config unsetTables l).bars t = BitVec.ofNat 32 (capBar config cp) ∧
        (recorded config unsetTables l).offsets t = capOffset config cp) ∨
      lastOf config t l = none ∧ (recorded config unsetTables l).bars t = unset := by
  simp only [recorded]
  cases lastOf config t l with
  | none => exact Or.inr ⟨rfl, rfl⟩
  | some cp => exact Or.inl ⟨cp, rfl, rfl, rfl⟩

theorem walk_mono {n m : ℕ} (h : walk config n cp f = some f') (hle : n ≤ m) :
    walk config m cp f = some f' := by
  induction n generalizing cp f m with
  | zero => cases h
  | succ n ih =>
    obtain ⟨m, rfl⟩ := Nat.exists_eq_succ_of_ne_zero (show m ≠ 0 by omega)
    rw [walk] at h ⊢
    by_cases hcp : cp = 0
    · rwa [if_pos hcp] at h ⊢
    · rw [if_neg hcp, Option.bind_eq_some_iff] at h ⊢
      obtain ⟨g, hg, hrest⟩ := h
      exact ⟨g, hg, ih hrest (by omega)⟩

/-- When the call ends without an access outside of its tables, and with what. -/
theorem initBars_ends (hcap : hasCapabilities config = true) (hl : IsCapabilityList config l)
    {heap : ℕ → ℕ} {o : Outcome} : (∃ fuel, initBars fuel ec config heap = some o) ↔
    (∀ cp ∈ considered l, vendorSpecific config cp = true → configType config cp < 6) ∧
      o.tables = recorded config unsetTables (considered l) ∧ o.handed = 6 ∧
      (List.range 6).foldlM (allocate ec o.tables) (unsetAllocations heap)
        = some o.allocations := by
  have hwalk {f : Tables} : (∃ fuel, walk config fuel (capesPointer config) unsetTables = some f) ↔
      (∀ cp ∈ considered l, vendorSpecific config cp = true → configType config cp < 6) ∧
        recorded config unsetTables (considered l) = f := by
    rw [← foldlM_consider]
    constructor
    · rintro ⟨fuel, h⟩
      rw [← walk_eq hl (show l.length < fuel + l.length + 1 by omega)]
      exact walk_mono h (by omega)
    · intro h
      exact ⟨l.length + 1, (walk_eq hl (Nat.lt_succ_self _)).trans h⟩
  simp only [initBars, hcap, if_true, Option.bind_eq_bind, Option.bind_eq_some_iff,
    Option.some.injEq]
  constructor
  · rintro ⟨fuel, f, hf, A, hA, rfl⟩
    obtain ⟨htypes, rfl⟩ := hwalk.1 ⟨fuel, hf⟩
    exact ⟨htypes, rfl, rfl, hA⟩
  · rintro ⟨htypes, htables, hhanded, hfold⟩
    obtain ⟨fuel, hf⟩ := hwalk.2 ⟨htypes, htables.symm⟩
    obtain ⟨tables, allocations, handed⟩ := o
    obtain rfl : handed = 6 := hhanded
    exact ⟨fuel, tables, hf, allocations, hfold, rfl⟩

theorem mem_considered (h : cp ∈ considered l) : cp ∈ l.tail ∨ l ≠ [] ∧ cp = 0 := by
  cases l with
  | nil => cases h
  | cons p l =>
    rcases List.mem_append.1 h with h | h
    · exact Or.inl h
    · exact Or.inr ⟨List.cons_ne_nil p l, List.mem_singleton.1 h⟩

theorem considered_of_tail (h : cp ∈ l.tail) : cp ∈ considered l := by
  cases l with
  | nil => cases h
  | cons p l => exact List.mem_append_left _ h

/-- The header is the last that is considered. -/
theorem lastOf_header (hne : l ≠ []) (h : HasType config t 0) :
    lastOf config t (considered l) = some 0 := by
  cases l with
  | nil => exact absurd rfl hne
  | cons p l => rw [considered, lastOf_append, lastOf_singleton, if_pos h, Option.some_or]

theorem harmless_of_records (hl : IsCapabilityList config l) {heap : ℕ → ℕ} {o : Outcome}
    (htypes : ∀ cp ∈ considered l, vendorSpecific config cp = true → configType config cp < 6)
    (htables : o.tables = recorded config unsetTables (considered l))
    (hfold : (List.range 6).foldlM (allocate ec o.tables) (unsetAllocations heap)
      = some o.allocations) (h : RecordsList config ec l o) : Harmless config l := by
  constructor
  · intro cp hcp
    cases l with
    | nil => cases hcp
    | cons p l =>
      obtain rfl : p = cp := Option.some.inj hcp
      by_contra hvendor
      have hmem := h.considers p List.mem_cons_self (by simpa using hvendor)
      rw [htables] at hmem
      rcases List.mem_append.1 hmem with hm | hm
      · cases hm
      · rcases mem_considered hm with hm | ⟨-, rfl⟩
        · exact (List.nodup_cons.1 hl.nodup).1 hm
        · exact (link_eq_some.1 hl.1).2 rfl
  · exact htypes
  · intro t ht cp hcp
    rcases recorded_bars config (considered l) t with ⟨cp', hlast, hbar, -⟩ | ⟨hnone, -⟩
    · obtain rfl : cp' = cp := Option.some.inj (hlast.symm.trans hcp)
      rw [← htables] at hbar
      have hhanded : Handed o.tables t := by
        refine ⟨by rw [VIRTIO_CAP_CFG_PCI]; omega, ?_⟩
        rw [hbar]
        exact capBar_ne_unset
      have hlt := foldlM_allocate_isSome.1 ⟨_, hfold⟩ t (List.mem_range.2 (by omega)) hhanded
      rwa [hbar, capBar_toNat] at hlt
    · rw [hnone] at hcp
      cases hcp
  · intro hne t ht ht' hheader
    rcases recorded_bars config (considered l) t with ⟨cp', hlast, hbar, hoffset⟩ | ⟨hnone, -⟩
    · obtain rfl : cp' = 0 := Option.some.inj (hlast.symm.trans (lastOf_header hne hheader))
      rw [← htables] at hbar hoffset
      by_cases hocc : ∃ cp ∈ l, HasType config t cp
      · obtain ⟨cp, hcp, htype, hbar', hoffset', -⟩ := h.records t ht ht' hocc
        refine ⟨cp, hcp, htype, ?_, hoffset'.symm.trans hoffset⟩
        rw [← capBar_toNat config cp, ← hbar', hbar, capBar_toNat]
      · exact absurd (hbar.symm.trans (h.unrecorded t ht ht' hocc).1) capBar_ne_unset
    · rw [lastOf_header hne hheader] at hnone
      cases hnone

theorem Harmless.records (h : Harmless config l) {heap : ℕ → ℕ} {o : Outcome}
    (htables : o.tables = recorded config unsetTables (considered l))
    (hfold : (List.range 6).foldlM (allocate ec o.tables) (unsetAllocations heap)
      = some o.allocations) : RecordsList config ec l o := by
  have hvendor (cp : ℕ) (hcp : cp ∈ l) (hv : vendorSpecific config cp = true) :
      cp ∈ considered l := by
    cases l with
    | nil => cases hcp
    | cons p l =>
      rcases List.mem_cons.1 hcp with rfl | hcp
      · rw [h.first cp rfl] at hv
        cases hv
      · exact considered_of_tail hcp
  constructor
  · intro cp hcp hv
    rw [htables]
    exact List.mem_append_right _ (hvendor cp hcp hv)
  · rintro t ht ht' ⟨cp₀, hcp₀, htype₀⟩
    rcases recorded_bars config (considered l) t with ⟨cp, hlast, hbar, hoffset⟩ | ⟨hnone, -⟩
    · rw [← htables] at hbar hoffset
      have hhanded : Handed o.tables t := by
        refine ⟨by rw [VIRTIO_CAP_CFG_PCI]; omega, ?_⟩
        rw [hbar]
        exact capBar_ne_unset
      obtain ⟨hmade, hec, hmadeOffset⟩ :=
        foldlM_allocate_made hfold List.nodup_range (List.mem_range.2 (by omega)) hhanded
      rw [hbar, capBar_toNat] at hmade hec hmadeOffset
      rw [hoffset] at hmadeOffset
      -- the last capability of the type, or another one of the list that says the same
      obtain ⟨cp', hcp', htype', hbar', hoffset'⟩ : ∃ cp' ∈ l, HasType config t cp' ∧
          capBar config cp' = capBar config cp ∧ capOffset config cp' = capOffset config cp := by
        obtain ⟨hcp, htype⟩ := mem_of_lastOf hlast
        rcases mem_considered hcp with hcp | ⟨hne, rfl⟩
        · exact ⟨cp, List.mem_of_mem_tail hcp, htype, rfl, rfl⟩
        · exact h.header hne t ht ht' htype
      refine ⟨cp', hcp', htype', ?_⟩
      rw [hbar', hoffset']
      exact ⟨hbar, hoffset, hmade, hec, hmadeOffset⟩
    · exact absurd ⟨cp₀, hvendor cp₀ hcp₀ htype₀.1, htype₀⟩ (lastOf_eq_none.1 hnone)
  · intro t ht ht' hno
    have hnone : lastOf config t (considered l) = none := by
      rw [lastOf_eq_none]
      rintro ⟨cp, hcp, htype⟩
      rcases mem_considered hcp with hcp | ⟨hne, rfl⟩
      · exact hno ⟨cp, List.mem_of_mem_tail hcp, htype⟩
      · obtain ⟨cp, hcp, htype, -⟩ := h.header hne t ht ht' htype
        exact hno ⟨cp, hcp, htype⟩
    have hunset : o.tables.bars t = unset := by
      rw [htables]
      simp only [recorded, hnone]
      rfl
    refine ⟨hunset, fun b _ => ?_⟩
    rw [foldlM_allocate_other hfold fun _ hhanded => hhanded.2 hunset]
    rfl

theorem recordsList_iff (hcap : hasCapabilities config = true) (hl : IsCapabilityList config l)
    (heap : ℕ → ℕ) : (∃ fuel o, initBars fuel ec config heap = some o ∧
      RecordsList config ec l o) ↔ Harmless config l := by
  constructor
  · rintro ⟨fuel, o, ho, hrecords⟩
    obtain ⟨htypes, htables, -, hfold⟩ := (initBars_ends hcap hl).1 ⟨fuel, ho⟩
    exact harmless_of_records hl htypes htables hfold hrecords
  · intro h
    obtain ⟨A, hA⟩ : ∃ A, (List.range 6).foldlM
        (allocate ec (recorded config unsetTables (considered l))) (unsetAllocations heap)
          = some A := by
      rw [foldlM_allocate_isSome]
      rintro t ht ⟨hpci, hset⟩
      rcases recorded_bars config (considered l) t with ⟨cp, hlast, hbar, -⟩ | ⟨-, hunset⟩
      · rw [hbar, capBar_toNat]
        have hlt := List.mem_range.1 ht
        rw [VIRTIO_CAP_CFG_PCI] at hpci
        exact h.bars t (by omega) cp hlast
      · exact absurd hunset hset
    obtain ⟨fuel, ho⟩ := (initBars_ends (o := ⟨_, A, 6⟩) hcap hl).2 ⟨h.types, rfl, rfl, hA⟩
    exact ⟨fuel, _, ho, h.records rfl hA⟩

/-- For which capability lists the call ends, stays inside of its tables and records them. -/
theorem capabilities_recorded_iff (config : Mem) (ec : ℕ) (heap : ℕ → ℕ) (l : List ℕ)
    (hcap : hasCapabilities config = true) (hl : IsCapabilityList config l) :
    (∃ fuel o, initBars fuel ec config heap = some o ∧ RecordsList config ec l o) ↔
      Harmless config l :=
  recordsList_iff hcap hl heap

/-- A virtio device with two capabilities: at 64 with an id of its own, for the common
configuration, and at 80 a vendor-specific one for the interrupt status. -/
def twoCapabilities (id : Byte) : Mem
  | 0 => 0xf4
  | 1 => 0x1a
  | 6 => 0x10
  | 52 => 64
  | 64 => id
  | 65 => 80
  | 67 => 1
  | 68 => 4
  | 80 => 0x09
  | 83 => 3
  | 84 => 4
  | _ => 0

theorem twoCapabilities_list (id : Byte) : IsCapabilityList (twoCapabilities id) [64, 80] :=
  ⟨rfl, rfl, rfl⟩

/-- Behind a capability for message interrupts. -/
theorem capabilities_recorded_iff_msix : ∃ fuel o,
    initBars fuel 0x30000000 (twoCapabilities 0x11) (fun _ => 0) = some o ∧
      RecordsList (twoCapabilities 0x11) 0x30000000 [64, 80] o := by
  refine (capabilities_recorded_iff (twoCapabilities 0x11) 0x30000000 (fun _ => 0) [64, 80]
    (by decide) (twoCapabilities_list 0x11)).2 ⟨?_, by decide, by decide, ?_⟩
  · rintro cp hcp
    obtain rfl : 64 = cp := Option.some.inj hcp
    rfl
  · rintro - t - - ⟨hvendor, -⟩
    exact absurd hvendor (by decide)

/-- The first capability is the common configuration of the device, and is not considered. -/
theorem first_capability_skipped : hasCapabilities (twoCapabilities 0x09) = true ∧
    IsCapabilityList (twoCapabilities 0x09) [64, 80] ∧
    ¬ ∃ fuel o, initBars fuel 0x30000000 (twoCapabilities 0x09) (fun _ => 0) = some o ∧
      RecordsList (twoCapabilities 0x09) 0x30000000 [64, 80] o := by
  refine ⟨by decide, twoCapabilities_list 0x09, ?_⟩
  rw [recordsList_iff (by decide) (twoCapabilities_list 0x09)]
  intro h
  exact absurd (h.first 64 rfl) (by decide)

end Pcie
