import DucreuOS.PciCapabilities
import DucreuOS.Library.Transition

/-! # The list of occupied BARs

`pcie_add_to_bar_list`, called any number of times. The list is a record of parallel arrays of 16,
kept as its bytes, so that an index of 16 reaches into the array behind. -/
namespace Pcie

open ByteMemory Transition

/-! ## The layout of `PCIe_bar_list_t` and of a configuration space -/

section Layout

variable (i : ℕ)

def vendorIDAt : ℕ := 2 * i
def deviceIDAt : ℕ := 32 + 2 * i
def whichBarAt : ℕ := 64 + 2 * i
def whichIrqAt : ℕ := 96 + 2 * i
def registerOffsetsAt : ℕ := 128 + 24 * i
def notesAt : ℕ := 512 + 200 * i

end Layout

/-- `&ec->type0.bar[which_bar]` -/
def barAt (ec : ℕ) (which_bar : Word) : ℕ := ec + 16 + 4 * which_bar.toNat

def PLIC_INT_CODE_IRQ0 : ℕ := 32

/-- `pcie_ecam_to_irq`, from the bus and the slot in the address -/
def ecamToIrq (ec : ℕ) : ℕ := PLIC_INT_CODE_IRQ0 + (ec / 2 ^ 20 % 256 + ec / 2 ^ 15 % 32) % 4

/-- What is recorded of a BAR. -/
structure Entry where
  ec : ℕ
  whichBar : Word
  vendorID : BitVec 16
  deviceID : BitVec 16
  registerOffsets : ℕ → Word
  notes : Notes

/-- `global_pcie_bars_occupied` with what lies behind it, and the configuration spaces; `entries`
is the history of the BARs that have been recorded. -/
structure State where
  table : Mem
  ecam : Mem
  entries : List Entry

/-- The search for an entry without a vendor, which leaves 16 when there is none. -/
def freeEntry (table : Mem) : ℕ :=
  ((List.range 16).find? fun i => load16 table (vendorIDAt i) = 0).getD 16

/-- The loop over the register offsets, `n` of them. -/
def storeOffsets (table : Mem) (a : ℕ) (offsets : ℕ → Word) : ℕ → Mem
  | 0 => table
  | n + 1 => store32 (storeOffsets table a offsets n) (a + 4 * n) (offsets n)

/-- `mstrcpy`, with the terminator -/
def mstrcpy (table : Mem) (dest : ℕ) (src : Notes) : Mem :=
  blit table dest (src.chars.length + 1) fun k => src.chars.getD k 0

def storeEntry (table : Mem) (i : ℕ) (e : Entry) : Mem :=
  let table := store16 table (vendorIDAt i) e.vendorID
  let table := store16 table (deviceIDAt i) e.deviceID
  let table := store16 table (whichBarAt i) (e.whichBar.setWidth 16)
  let table := store16 table (whichIrqAt i) (BitVec.ofNat 16 (ecamToIrq e.ec))
  let table := storeOffsets table (registerOffsetsAt i) e.registerOffsets 6
  mstrcpy table (notesAt i) e.notes

/-- `0x40000000+0x00100000*i` -/
def windowOf (i : ℕ) : Word := 0x40000000 + 0x00100000 * BitVec.ofNat 32 i

/-- The BAR of the device is set; the upper half of one with 64 bits is cleared. -/
def setBar (ecam : Mem) (bar : ℕ) (value : Word) : Mem :=
  let ecam := if load32 ecam bar &&& 0x6 = 0x4 then store32 ecam (bar + 4) 0 else ecam
  store32 ecam bar value

def addToBarList (s : State) (a : Allocation) : State :=
  if a.whichBar = unset then s
  else
    let i := freeEntry s.table
    let e : Entry := ⟨a.ec, a.whichBar, load16 s.ecam a.ec, load16 s.ecam (a.ec + 2),
      a.virtioRegisterOffsets, a.notes⟩
    { table := storeEntry s.table i e
      ecam := setBar s.ecam (barAt a.ec a.whichBar) (windowOf i)
      entries := s.entries ++ [e] }

/-! ## Runs -/

/-- A call for a device with a vendor id. -/
def Step (s : State) (a : Allocation) (s' : State) : Prop :=
  load16 s.ecam a.ec ≠ 0 ∧ s' = addToBarList s a

/-- No entry yet, as the list lies in zeroed memory. -/
def initial (ecam : Mem) : State := ⟨fun _ => 0, ecam, []⟩

/-- The list is not full, or the call is for no BAR. -/
def Meets (s : State) (a : Allocation) : Prop :=
  a.whichBar = unset ∨ ∃ i < 16, load16 s.table (vendorIDAt i) = 0

def MeetingStep (s : State) (a : Allocation) (s' : State) : Prop := Step s a s' ∧ Meets s a

/-- Entry `i` of the list records `e`. -/
structure Records (table : Mem) (i : ℕ) (e : Entry) : Prop where
  vendorID : load16 table (vendorIDAt i) = e.vendorID
  deviceID : load16 table (deviceIDAt i) = e.deviceID
  whichBar : load16 table (whichBarAt i) = e.whichBar.setWidth 16
  whichIrq : load16 table (whichIrqAt i) = BitVec.ofNat 16 (ecamToIrq e.ec)
  registerOffsets : ∀ j < 6, load32 table (registerOffsetsAt i + 4 * j) = e.registerOffsets j
  notes : ∀ k ≤ e.notes.chars.length, table (notesAt i + k) = e.notes.chars.getD k 0

/-- The bytes of entry `i`. -/
def InEntry (i x : ℕ) : Prop :=
  (vendorIDAt i ≤ x ∧ x < vendorIDAt i + 2) ∨ (deviceIDAt i ≤ x ∧ x < deviceIDAt i + 2) ∨
    (whichBarAt i ≤ x ∧ x < whichBarAt i + 2) ∨ (whichIrqAt i ≤ x ∧ x < whichIrqAt i + 2) ∨
    (registerOffsetsAt i ≤ x ∧ x < registerOffsetsAt i + 24) ∨
    (notesAt i ≤ x ∧ x < notesAt i + 200)

/-- What a call does to a list. -/
structure Kept (s : State) (a : Allocation) (s' : State) : Prop where
  /-- A new BAR gets the window of its entry. -/
  window : s.entries.length < 16 → a.whichBar ≠ unset →
    s'.entries.length = s.entries.length + 1 ∧
      load32 s'.ecam (barAt a.ec a.whichBar) = windowOf s.entries.length
  earlier : ∀ k < s.entries.length, ∀ x, InEntry k x → s'.table x = s.table x
  full : s.entries.length = 16 → s'.table = s.table ∧ s'.ecam = s.ecam

/-! ## An entry -/

section Store

variable {table : Mem} {i j x : ℕ} {e : Entry}

theorem load16_store16 {a : ℕ} {v : BitVec 16} : load16 (store16 table a v) a = v :=
  load16_leByte fun i hi => by
    rw [store16, blit_inside (by omega) (by omega), Nat.add_sub_cancel_left]

theorem storeOffsets_outside {b : ℕ} {offsets : ℕ → Word} (n : ℕ) (hx : x < b ∨ b + 4 * n ≤ x) :
    storeOffsets table b offsets n x = table x := by
  induction n with
  | zero => rfl
  | succ n ih =>
    rw [storeOffsets, store32, blit_outside (by omega)]
    exact ih (by omega)

theorem load16_storeOffsets {a b n : ℕ} {offsets : ℕ → Word} (h : a + 2 ≤ b ∨ b + 4 * n ≤ a) :
    load16 (storeOffsets table b offsets n) a = load16 table a :=
  load16_congr fun i hi => storeOffsets_outside n (by omega)

theorem load32_storeOffsets {b n : ℕ} {offsets : ℕ → Word} (hj : j < n) :
    load32 (storeOffsets table b offsets n) (b + 4 * j) = offsets j := by
  induction n with
  | zero => omega
  | succ n ih =>
    rw [storeOffsets]
    by_cases hjn : j = n
    · rw [hjn, load32_store32]
    · rw [store32, load32_blit_disjoint (by omega)]
      exact ih (by omega)

theorem storeEntry_outside (hx : ¬ InEntry i x) : storeEntry table i e x = table x := by
  have hfits := e.notes.fits
  simp only [InEntry, not_or, not_and, not_lt] at hx
  simp only [storeEntry, mstrcpy, store16]
  rw [blit_outside (by omega), storeOffsets_outside 6 (by omega), blit_outside (by omega),
    blit_outside (by omega), blit_outside (by omega), blit_outside (by omega)]

/-- The fields of a stored entry do not overlap. -/
theorem storeEntry_records (hi : i < 16) : Records (storeEntry table i e) i e := by
  have hfits := e.notes.fits
  have hvendor : vendorIDAt i + 2 ≤ 32 := by unfold vendorIDAt; omega
  have hdevice : 32 ≤ deviceIDAt i ∧ deviceIDAt i + 2 ≤ 64 := by unfold deviceIDAt; omega
  have hbar : 64 ≤ whichBarAt i ∧ whichBarAt i + 2 ≤ 96 := by unfold whichBarAt; omega
  have hirq : 96 ≤ whichIrqAt i ∧ whichIrqAt i + 2 ≤ 128 := by unfold whichIrqAt; omega
  have hoffsets : 128 ≤ registerOffsetsAt i ∧ registerOffsetsAt i + 24 ≤ 512 := by
    unfold registerOffsetsAt; omega
  have hnotes : 512 ≤ notesAt i := by unfold notesAt; omega
  constructor
  case vendorID =>
    rw [storeEntry, mstrcpy, load16_blit_disjoint (by omega), load16_storeOffsets (by omega),
      store16, load16_blit_disjoint (by omega), store16, load16_blit_disjoint (by omega),
      store16, load16_blit_disjoint (by omega), load16_store16]
  case deviceID =>
    rw [storeEntry, mstrcpy, load16_blit_disjoint (by omega), load16_storeOffsets (by omega),
      store16, load16_blit_disjoint (by omega), store16, load16_blit_disjoint (by omega),
      load16_store16]
  case whichBar =>
    rw [storeEntry, mstrcpy, load16_blit_disjoint (by omega), load16_storeOffsets (by omega),
      store16, load16_blit_disjoint (by omega), load16_store16]
  case whichIrq =>
    rw [storeEntry, mstrcpy, load16_blit_disjoint (by omega), load16_storeOffsets (by omega),
      load16_store16]
  case registerOffsets =>
    intro j hj
    rw [storeEntry, mstrcpy, load32_blit_disjoint (by omega), load32_storeOffsets hj]
  case notes =>
    intro k hk
    rw [storeEntry, mstrcpy, blit_inside (by omega) (by omega), Nat.add_sub_cancel_left]

theorem InEntry.unique (hi : i < 16) (hj : j < 16) (h : InEntry i x) (h' : InEntry j x) :
    i = j := by
  simp only [InEntry, vendorIDAt, deviceIDAt, whichBarAt, whichIrqAt, registerOffsetsAt,
    notesAt] at h h'
  omega

theorem load16_storeEntry_of_ne (hi : i < 16) (hj : j < 16) (hne : j ≠ i) :
    load16 (storeEntry table i e) (vendorIDAt j) = load16 table (vendorIDAt j) := by
  apply load16_congr
  intro k hk
  apply storeEntry_outside
  intro hx
  have hx' : InEntry j (vendorIDAt j + k) := Or.inl ⟨by omega, by omega⟩
  exact hne (hx'.unique hj hi hx)

/-- An entry lies in its own bytes. -/
theorem Records.congr {table' : Mem} (h : Records table i e)
    (hsame : ∀ x, InEntry i x → table' x = table x) : Records table' i e := by
  have hfits := e.notes.fits
  constructor
  case vendorID =>
    rw [← h.vendorID]
    exact load16_congr fun k hk => hsame _ (by unfold InEntry; omega)
  case deviceID =>
    rw [← h.deviceID]
    exact load16_congr fun k hk => hsame _ (by unfold InEntry; omega)
  case whichBar =>
    rw [← h.whichBar]
    exact load16_congr fun k hk => hsame _ (by unfold InEntry; omega)
  case whichIrq =>
    rw [← h.whichIrq]
    exact load16_congr fun k hk => hsame _ (by unfold InEntry; omega)
  case registerOffsets =>
    intro j hj
    rw [← h.registerOffsets j hj]
    exact load32_congr fun k hk => hsame _ (by unfold InEntry; omega)
  case notes =>
    intro k hk
    rw [← h.notes k hk]
    exact hsame _ (by unfold InEntry; omega)

/-- The search finds the first entry without a vendor. -/
theorem freeEntry_eq {n : ℕ} (hn : n ≤ 16) (hocc : ∀ k < n, load16 table (vendorIDAt k) ≠ 0)
    (hfree : n < 16 → load16 table (vendorIDAt n) = 0) : freeEntry table = n := by
  rcases Nat.lt_or_ge n 16 with hlt | hge
  · have hfind : (List.range 16).find? (fun i => load16 table (vendorIDAt i) = 0) = some n :=
      List.find?_range_eq_some.2 ⟨by simpa using hfree hlt, List.mem_range.2 hlt,
        fun k hk => by simpa using hocc k hk⟩
    rw [freeEntry, hfind, Option.getD_some]
  · obtain rfl : n = 16 := by omega
    have hfind : (List.range 16).find? (fun i => load16 table (vendorIDAt i) = 0) = none :=
      List.find?_range_eq_none.2 fun k hk => by simpa using hocc k hk
    rw [freeEntry, hfind, Option.getD_none]

end Store

/-! ## The BAR -/

variable {s s' : State} {a : Allocation} {ecam : Mem}

theorem setBar_bar (bar : ℕ) (value : Word) : load32 (setBar ecam bar value) bar = value := by
  rw [setBar, load32_store32]

/-- The entries fill the list from the front, and the rest has no vendor. -/
structure Filled (s : State) : Prop where
  count : s.entries.length ≤ 16
  records : ∀ k e, s.entries[k]? = some e → Records s.table k e
  vendor : ∀ e ∈ s.entries, e.vendorID ≠ 0
  free : ∀ k, s.entries.length ≤ k → k < 16 → load16 s.table (vendorIDAt k) = 0

theorem Filled.occupied (h : Filled s) {k : ℕ} (hk : k < s.entries.length) :
    load16 s.table (vendorIDAt k) ≠ 0 := by
  rw [(h.records k _ (List.getElem?_eq_getElem hk)).vendorID]
  exact h.vendor _ (List.getElem_mem hk)

theorem Filled.freeEntry (h : Filled s) : freeEntry s.table = s.entries.length :=
  freeEntry_eq h.count (fun _ => h.occupied) fun hlt => h.free _ le_rfl hlt

theorem Filled.meets_iff (h : Filled s) :
    Meets s a ↔ a.whichBar = unset ∨ s.entries.length < 16 := by
  apply or_congr_right
  constructor
  · rintro ⟨i, hi, hzero⟩
    by_contra hfull
    exact h.occupied (by omega) hzero
  · intro hlt
    exact ⟨_, hlt, h.free _ le_rfl hlt⟩

theorem MeetingStep.kept (h : MeetingStep s a s') (hs : Filled s) : Kept s a s' := by
  obtain ⟨⟨-, rfl⟩, hmeets⟩ := h
  have hroom := hs.meets_iff.1 hmeets
  by_cases hset : a.whichBar = unset
  · rw [addToBarList, if_pos hset]
    exact ⟨fun _ hne => absurd hset hne, fun _ _ _ _ => rfl, fun _ => ⟨rfl, rfl⟩⟩
  · have hlt : s.entries.length < 16 := hroom.resolve_left hset
    simp only [addToBarList, if_neg hset, hs.freeEntry]
    constructor
    case window => exact fun _ _ => ⟨by simp, setBar_bar _ _⟩
    case earlier =>
      intro k hk x hx
      apply storeEntry_outside
      intro hx'
      have := hx.unique (by omega) hlt hx'
      omega
    case full => intro hfull; omega

theorem MeetingStep.filled (h : MeetingStep s a s') (hs : Filled s) : Filled s' := by
  have hkept := h.kept hs
  obtain ⟨⟨hvendor, rfl⟩, hmeets⟩ := h
  have hroom := hs.meets_iff.1 hmeets
  by_cases hset : a.whichBar = unset
  · rwa [addToBarList, if_pos hset]
  · have hlt : s.entries.length < 16 := hroom.resolve_left hset
    have hearlier := hkept.earlier
    simp only [addToBarList, if_neg hset, hs.freeEntry] at hearlier ⊢
    constructor
    case count => simp only [List.length_append, List.length_singleton]; omega
    case records =>
      intro k e hk
      rcases Nat.lt_trichotomy k s.entries.length with hlt' | rfl | hgt
      · rw [List.getElem?_append_left hlt'] at hk
        exact (hs.records k e hk).congr (hearlier k hlt')
      · simp only [List.getElem?_concat_length, Option.some.injEq] at hk
        rw [← hk]
        exact storeEntry_records hlt
      · rw [List.getElem?_eq_none (by simp; omega)] at hk
        cases hk
    case vendor =>
      intro e he
      rcases List.mem_append.1 he with he | he
      · exact hs.vendor e he
      · rw [List.mem_singleton.1 he]
        exact hvendor
    case free =>
      intro k hk hk16
      simp only [List.length_append, List.length_singleton] at hk
      rw [load16_storeEntry_of_ne hlt hk16 (by omega)]
      exact hs.free k (by omega) hk16

end Pcie
