import DucreuOS.Library.ByteMemory
import DucreuOS.Library.Transition

/-! # The physical page allocator

Two bits a page, four pages to a byte, at the start of the heap; page number `k` stands for
the memory at `pageAddr h k`. Console messages are not modelled. Liveness is a ghost list. -/
namespace PageAllocator

open ByteMemory Transition

def PAGE_SIZE : ℕ := 4096

/-- The linker symbols around the page heap. -/
structure HeapSymbols where
  start : ℕ
  stop : ℕ
  deriving DecidableEq, Repr

/-- Conversion of an unsigned 64-bit value to `int`. -/
def toInt (x : ℕ) : ℤ := (BitVec.ofNat 32 x).toInt

def wrap64 (x : ℤ) : ℕ := (x % 2 ^ 64).toNat

/-! ## Bookkeeping bits -/

def whichByte (page_n : ℤ) : ℤ := page_n.tdiv 4

def takenBit (page_n : ℤ) : ℤ := 2 * page_n.tmod 4

def lastBit (page_n : ℤ) : ℤ := 2 * page_n.tmod 4 + 1

/-- A 32-bit shift uses the low five bits of its count; the bits above the byte are dropped. -/
def mark (bit : ℤ) : Byte := 1#8 <<< (bit % 32).toNat

def testMark (m : Mem) (base : ℕ) (page_n bit : ℤ) : Bool :=
  (m (base + whichByte page_n).toNat >>> (bit % 32).toNat).getLsbD 0

def setMark (m : Mem) (base : ℕ) (page_n bit : ℤ) : Mem :=
  let a := (base + whichByte page_n).toNat
  Function.update m a (m a ||| mark bit)

def clearMark (m : Mem) (base : ℕ) (page_n bit : ℤ) : Mem :=
  let a := (base + whichByte page_n).toNat
  Function.update m a (m a &&& ~~~mark bit)

def isTaken (m : Mem) (base : ℕ) (page_n : ℤ) : Bool := testMark m base page_n (takenBit page_n)
def clearTaken (m : Mem) (base : ℕ) (page_n : ℤ) : Mem := clearMark m base page_n (takenBit page_n)
def setTaken (m : Mem) (base : ℕ) (page_n : ℤ) : Mem := setMark m base page_n (takenBit page_n)
def isLast (m : Mem) (base : ℕ) (page_n : ℤ) : Bool := testMark m base page_n (lastBit page_n)
def clearLast (m : Mem) (base : ℕ) (page_n : ℤ) : Mem := clearMark m base page_n (lastBit page_n)
def setLast (m : Mem) (base : ℕ) (page_n : ℤ) : Mem := setMark m base page_n (lastBit page_n)

/-! ## The operations -/

def totalPages (h : HeapSymbols) : ℕ := (h.stop - h.start) / PAGE_SIZE

def bookkeepingBytes (h : HeapSymbols) : ℕ := totalPages h / 4

def roundToPage (n : ℕ) : ℕ := (n + PAGE_SIZE - 1) / PAGE_SIZE * PAGE_SIZE

def pagesForBookkeeping (h : HeapSymbols) : ℕ := roundToPage (bookkeepingBytes h) / PAGE_SIZE

/-- The memory that page number `i` stands for. -/
def pageAddr (h : HeapSymbols) (i : ℕ) : ℕ :=
  h.start + roundToPage (bookkeepingBytes h) + PAGE_SIZE * i

/-- `set_taken` on the page numbers `i, …, i + c - 1`. -/
def setTakenRun (m : Mem) (base i : ℕ) : ℕ → Mem
  | 0 => m
  | c + 1 => setTaken (setTakenRun m base i c) base ((i + c : ℕ) : ℤ)

def pageInit (h : HeapSymbols) (m : Mem) : Mem :=
  let m := fill m h.start (bookkeepingBytes h) 0
  let m := setTakenRun m h.start 0 (pagesForBookkeeping h)
  setLast m h.start ((pagesForBookkeeping h : ℤ) - 1)

/-- The inner loop of `page_znalloc`: count free pages from `j` until `n` are found.
The first argument is the number of pages from `j` to the end of the heap. -/
def znallocCount (m : Mem) (base : ℕ) (n : ℤ) : ℕ → ℕ → ℕ → Option ℕ
  | 0, _, _ => none
  | fuel + 1, j, consecutive =>
    if isTaken m base j then none
    else if n ≤ (consecutive + 1 : ℕ) then some (consecutive + 1)
    else znallocCount m base n fuel (j + 1) (consecutive + 1)

/-- The outer loop: the first argument counts down the start pages still to be tried. -/
def znallocSearch (m : Mem) (base total : ℕ) (n : ℤ) : ℕ → ℕ → Option (ℕ × ℕ)
  | 0, _ => none
  | fuel + 1, i =>
    if isTaken m base i then znallocSearch m base total n fuel (i + 1)
    else match znallocCount m base n (total - i) i 0 with
      | some consecutive => some (i, consecutive)
      | none => znallocSearch m base total n fuel (i + 1)

def pageZnalloc (h : HeapSymbols) (m : Mem) (n : ℤ) : Option ℕ × Mem :=
  match znallocSearch m h.start (totalPages h) n (totalPages h / 10) 0 with
  | none => (none, m)
  | some (i, consecutive) =>
    let m := setTakenRun m h.start i consecutive
    let m := setLast m h.start ((i + consecutive : ℕ) - 1 : ℤ)
    let p := h.start + roundToPage (bookkeepingBytes h) + PAGE_SIZE * i
    (some p, fill m p (PAGE_SIZE * consecutive) 0)

def pageZalloc (h : HeapSymbols) (m : Mem) : Option ℕ × Mem := pageZnalloc h m 1

/-- The `do … while(1)` of `page_free`; `none` when the loop is still running. -/
def pageFreeLoop (base : ℕ) : ℕ → Mem → ℕ → Option Mem
  | 0, _, _ => none
  | fuel + 1, m, location =>
    if !isTaken m base (toInt location) then some m
    else if isLast m base (toInt location) then
      some (clearLast (clearTaken m base (toInt location)) base (toInt location))
    else pageFreeLoop base fuel (clearTaken m base (toInt location)) (wrap64 (location + 1))

def pageFree (h : HeapSymbols) (fuel : ℕ) (m : Mem) (page : ℕ) : Option Mem :=
  let location := wrap64 (page - bookkeepingBytes h - h.start) / PAGE_SIZE
  if page < h.start ∨ h.stop < page then some m
  else
    let prev := toInt (wrap64 (location - 1))
    let m := if isTaken m h.start prev then setLast m h.start prev else m
    pageFreeLoop h.start fuel m location

/-! ## The bits as packed arrays -/

section Bits
variable (m : Mem) (base : ℕ) (p k : ℕ)

private theorem byte_of_page : ((base : ℤ) + whichByte (p : ℤ)).toNat = base + p / 4 := by
  simp only [whichByte, Int.tdiv_eq_ediv_of_nonneg (Int.natCast_nonneg p)]
  omega

private theorem taken_shift : (takenBit (p : ℤ) % 32).toNat = 2 * (p % 4) := by
  simp only [takenBit, Int.tmod_eq_emod_of_nonneg (Int.natCast_nonneg p)]
  omega

private theorem last_shift : (lastBit (p : ℤ) % 32).toNat = 2 * (p % 4) + 1 := by
  simp only [lastBit, Int.tmod_eq_emod_of_nonneg (Int.natCast_nonneg p)]
  omega

theorem isTaken_eq : isTaken m base p = bitAt m base (2 * p) := by
  simp only [isTaken, testMark, bitAt, byte_of_page, taken_shift, BitVec.getLsbD_ushiftRight]
  rw [show 2 * p / 8 = p / 4 by omega, show 2 * p % 8 = 2 * (p % 4) by omega, Nat.add_zero]

theorem isLast_eq : isLast m base p = bitAt m base (2 * p + 1) := by
  simp only [isLast, testMark, bitAt, byte_of_page, last_shift, BitVec.getLsbD_ushiftRight]
  rw [show (2 * p + 1) / 8 = p / 4 by omega, show (2 * p + 1) % 8 = 2 * (p % 4) + 1 by omega,
    Nat.add_zero]

theorem setTaken_eq : setTaken m base p = setBit m base (2 * p) := by
  simp only [setTaken, setMark, setBit, mark, byte_of_page, taken_shift]
  rw [show 2 * p / 8 = p / 4 by omega, show 2 * p % 8 = 2 * (p % 4) by omega]

theorem setLast_eq : setLast m base p = setBit m base (2 * p + 1) := by
  simp only [setLast, setMark, setBit, mark, byte_of_page, last_shift]
  rw [show (2 * p + 1) / 8 = p / 4 by omega, show (2 * p + 1) % 8 = 2 * (p % 4) + 1 by omega]

theorem clearTaken_eq : clearTaken m base p = clearBit m base (2 * p) := by
  simp only [clearTaken, clearMark, clearBit, mark, byte_of_page, taken_shift]
  rw [show 2 * p / 8 = p / 4 by omega, show 2 * p % 8 = 2 * (p % 4) by omega]

theorem clearLast_eq : clearLast m base p = clearBit m base (2 * p + 1) := by
  simp only [clearLast, clearMark, clearBit, mark, byte_of_page, last_shift]
  rw [show (2 * p + 1) / 8 = p / 4 by omega, show (2 * p + 1) % 8 = 2 * (p % 4) + 1 by omega]

end Bits

theorem toInt_of_lt {x : ℕ} (hx : x < 2 ^ 31) : toInt x = x := by
  rw [toInt, BitVec.toInt_eq_toNat_of_lt] <;> simp <;> omega

theorem wrap64_of_lt {x : ℕ} (hx : x < 2 ^ 64) : wrap64 x = x := by
  simp only [wrap64]; omega

theorem bitAt_setTakenRun (m : Mem) (base i c j : ℕ) :
    bitAt (setTakenRun m base i c) base j =
      (decide (j % 2 = 0 ∧ i ≤ j / 2 ∧ j / 2 < i + c) || bitAt m base j) := by
  induction c with
  | zero => simp [setTakenRun]
  | succ c ih =>
    rw [setTakenRun, setTaken_eq, bitAt_setBit, ih, ← Bool.or_assoc, ← Bool.decide_or]
    congr 1
    exact decide_eq_decide.mpr (by omega)

theorem setTakenRun_apart {m : Mem} {base i c x : ℕ} (h : x < base ∨ base + (i + c + 3) / 4 ≤ x) :
    setTakenRun m base i c x = m x := by
  induction c with
  | zero => rfl
  | succ c ih =>
    rw [setTakenRun, setTaken_eq, setBit_apart (by omega), ih (by omega)]

/-- Filling memory beyond the bit array of the page numbers below `t` keeps its bits. -/
theorem bitAt_fill {m : Mem} {base t j a n : ℕ} {b : Byte} (hj : j < 2 * t)
    (ha : base + (t + 3) / 4 ≤ a) : bitAt (fill m a n b) base j = bitAt m base j :=
  bitAt_congr (blit_outside (by omega))

/-! ## What one call does -/

theorem znallocCount_some {m : Mem} {base : ℕ} {n : ℕ} {fuel j c r : ℕ}
    (h : znallocCount m base n fuel j c = some r) (hc : c < n) :
    r = n ∧ n - c ≤ fuel ∧ ∀ x, j ≤ x → x < j + (n - c) → isTaken m base x = false := by
  induction fuel generalizing j c with
  | zero => simp [znallocCount] at h
  | succ fuel ih =>
    rw [znallocCount] at h
    split at h
    · cases h
    · rename_i hfree
      split at h
      · rename_i hn
        cases h
        refine ⟨by omega, by omega, fun x h1 h2 => ?_⟩
        have hx : x = j := by omega
        subst hx; simpa using hfree
      · rename_i hn
        obtain ⟨hr, hf, hx⟩ := ih h (by omega)
        refine ⟨hr, by omega, fun x h1 h2 => ?_⟩
        by_cases he : x = j
        · subst he; simpa using hfree
        · exact hx x (by omega) (by omega)

theorem znallocSearch_some {m : Mem} {base total : ℕ} {n : ℕ} {fuel i p c : ℕ} (hn : 1 ≤ n)
    (h : znallocSearch m base total n fuel i = some (p, c)) :
    c = n ∧ i ≤ p ∧ p < i + fuel ∧ p + n ≤ total ∧
      ∀ x, p ≤ x → x < p + n → isTaken m base x = false := by
  induction fuel generalizing i with
  | zero => simp [znallocSearch] at h
  | succ fuel ih =>
    rw [znallocSearch] at h
    split at h
    · obtain ⟨h1, h2, h3, h4⟩ := ih h
      exact ⟨h1, by omega, by omega, h4⟩
    · split at h
      · rename_i r hr
        cases h
        obtain ⟨h1, h2, h3⟩ := znallocCount_some hr (by omega)
        exact ⟨h1, by omega, by omega, by omega, fun x hx hx' => h3 x hx (by omega)⟩
      · obtain ⟨h1, h2, h3, h4⟩ := ih h
        exact ⟨h1, by omega, by omega, h4⟩

/-- A successful call marks `n` free pages of the heap and clears their memory. -/
theorem pageZnalloc_some {h : HeapSymbols} {m m' : Mem} {n r : ℕ} (hn : 1 ≤ n)
    (hz : pageZnalloc h m n = (some r, m')) :
    ∃ i, r = pageAddr h i ∧ i + n ≤ totalPages h ∧
      (∀ x, i ≤ x → x < i + n → isTaken m h.start x = false) ∧
      m' = fill (setLast (setTakenRun m h.start i n) h.start ((i + n - 1 : ℕ) : ℤ))
        (pageAddr h i) (PAGE_SIZE * n) 0 := by
  rw [pageZnalloc] at hz
  split at hz
  · cases hz
  · rename_i p c hs
    cases hz
    obtain ⟨rfl, -, -, ht, hfree⟩ := znallocSearch_some hn hs
    refine ⟨p, rfl, ht, hfree, ?_⟩
    have hcast : ((p + c : ℕ) - 1 : ℤ) = ((p + c - 1 : ℕ) : ℤ) := by omega
    simp only [hcast, pageAddr]

theorem pageZnalloc_none {h : HeapSymbols} {m m' : Mem} {n : ℤ}
    (hz : pageZnalloc h m n = (none, m')) : m' = m := by
  rw [pageZnalloc] at hz
  split at hz <;> cases hz
  rfl

theorem pageFreeLoop_more {base fuel : ℕ} {m m' : Mem} {loc : ℕ} (k : ℕ)
    (h : pageFreeLoop base fuel m loc = some m') :
    pageFreeLoop base (fuel + k) m loc = some m' := by
  induction fuel generalizing m loc with
  | zero => simp [pageFreeLoop] at h
  | succ fuel ih =>
    rw [Nat.add_right_comm]
    rw [pageFreeLoop] at h ⊢
    split_ifs at h ⊢ with h1 h2
    · exact h
    · exact h
    · exact ih h

/-- From `loc` the loop clears the taken bits up to the first page with a last bit. -/
theorem pageFreeLoop_run {base : ℕ} {c loc : ℕ} {m : Mem} (hlt : loc + c < 2 ^ 31)
    (ht : ∀ x, loc ≤ x → x ≤ loc + c → isTaken m base x = true)
    (hl : ∀ x, loc ≤ x → x < loc + c → isLast m base x = false)
    (he : isLast m base ((loc + c : ℕ) : ℤ) = true) :
    ∃ m', pageFreeLoop base (c + 1) m loc = some m' ∧
      (∀ j, bitAt m' base j = (bitAt m base j &&
        !decide ((j % 2 = 0 ∧ loc ≤ j / 2 ∧ j / 2 ≤ loc + c) ∨ j = 2 * (loc + c) + 1))) ∧
      (∀ x, x < base ∨ base + (loc + c) / 4 < x → m' x = m x) := by
  induction c generalizing m loc with
  | zero =>
    have hi : toInt loc = loc := toInt_of_lt (by omega)
    refine ⟨clearLast (clearTaken m base loc) base loc, ?_, ?_, ?_⟩
    · rw [pageFreeLoop, hi, if_neg (by simp [ht loc (by omega) (by omega)]),
        if_pos (by simpa using he)]
    · intro j
      rw [clearLast_eq, clearTaken_eq, bitAt_clearBit, bitAt_clearBit]
      grind
    · intro x hx
      rw [clearLast_eq, clearTaken_eq, clearBit_apart (by omega), clearBit_apart (by omega)]
  | succ c ih =>
    have hi : toInt loc = loc := toInt_of_lt (by omega)
    have hw : wrap64 ((loc : ℤ) + 1) = loc + 1 := @wrap64_of_lt (loc + 1) (by omega)
    obtain ⟨m', hm, hb, hx⟩ := @ih (loc + 1) (clearTaken m base loc) (by omega)
      (fun x h1 h2 => by
        rw [isTaken_eq, clearTaken_eq, bitAt_clearBit, ← isTaken_eq, ht x (by omega) (by omega)]
        simp; omega)
      (fun x h1 h2 => by
        rw [isLast_eq, clearTaken_eq, bitAt_clearBit, ← isLast_eq, hl x (by omega) (by omega)]
        simp)
      (by
        rw [isLast_eq, clearTaken_eq, bitAt_clearBit, ← isLast_eq]
        rw [show loc + 1 + c = loc + (c + 1) by omega, he]
        simp; omega)
    refine ⟨m', ?_, ?_, ?_⟩
    · rw [pageFreeLoop, hi, if_neg (by simp [ht loc (by omega) (by omega)]),
        if_neg (by simp [hl loc (by omega) (by omega)]), hw]
      exact hm
    · intro j
      rw [hb, clearTaken_eq, bitAt_clearBit]
      grind
    · intro x hx'
      rw [hx x (by omega), clearTaken_eq, clearBit_apart (by omega)]

/-! ## Runs -/

/-- A block of consecutive page numbers handed to a client. -/
structure Block where
  first : ℕ
  pages : ℕ
  deriving DecidableEq, Repr

def Block.Covers (b : Block) (k : ℕ) : Prop := b.first ≤ k ∧ k < b.first + b.pages

def Block.finalPage (b : Block) : ℕ := b.first + b.pages - 1

def Block.addr (h : HeapSymbols) (b : Block) : ℕ := pageAddr h b.first

def Block.endAddr (h : HeapSymbols) (b : Block) : ℕ := b.addr h + PAGE_SIZE * b.pages

/-- The memory of two blocks does not overlap. -/
def Block.Apart (h : HeapSymbols) (a b : Block) : Prop :=
  a.endAddr h ≤ b.addr h ∨ b.endAddr h ≤ a.addr h

instance (h : HeapSymbols) : Std.Symm (Block.Apart h) := ⟨fun _ _ => Or.symm⟩

/-- The pages of a block before its `k`-th one. -/
def Block.keep (b : Block) (k : ℕ) : List Block := if k = 0 then [] else [⟨b.first, k⟩]

structure State where
  mem : Mem
  live : List Block

inductive Op where
  | page_znalloc (n : ℕ)
  | page_zalloc
  | page_free (p : ℕ)
  | store (x : ℕ) (b : Byte)

/-- A client frees a page of a live block, and stores only into its own blocks. -/
inductive Step (h : HeapSymbols) : State → Op → State → Prop where
  | znalloc (s : State) (n i : ℕ) (m' : Mem) (hn : 1 ≤ n)
      (hz : pageZnalloc h s.mem n = (some (pageAddr h i), m'))
      (hend : (Block.mk i n).endAddr h ≤ h.stop) :
      Step h s (.page_znalloc n) ⟨m', ⟨i, n⟩ :: s.live⟩
  | znallocNull (s : State) (n : ℕ) (m' : Mem) (hn : 1 ≤ n)
      (hz : pageZnalloc h s.mem n = (none, m')) : Step h s (.page_znalloc n) ⟨m', s.live⟩
  | zalloc (s : State) (i : ℕ) (m' : Mem) (hz : pageZalloc h s.mem = (some (pageAddr h i), m'))
      (hend : (Block.mk i 1).endAddr h ≤ h.stop) :
      Step h s .page_zalloc ⟨m', ⟨i, 1⟩ :: s.live⟩
  | zallocNull (s : State) (m' : Mem) (hz : pageZalloc h s.mem = (none, m')) :
      Step h s .page_zalloc ⟨m', s.live⟩
  | free (s : State) (before after : List Block) (b : Block) (k fuel : ℕ) (m' : Mem)
      (hl : s.live = before ++ b :: after) (hk : k < b.pages)
      (hf : pageFree h fuel s.mem (pageAddr h (b.first + k)) = some m') :
      Step h s (.page_free (pageAddr h (b.first + k))) ⟨m', before ++ b.keep k ++ after⟩
  | store (s : State) (b : Block) (x : ℕ) (v : Byte) (hb : b ∈ s.live)
      (hx : b.addr h ≤ x) (hx' : x < b.endAddr h) :
      Step h s (.store x v) ⟨Function.update s.mem x v, s.live⟩

/-- At least 16 pages and less than 2 GiB, inside the 64-bit address space. -/
structure HeapSymbols.Fits (h : HeapSymbols) : Prop where
  atLeast : h.start + 16 * PAGE_SIZE ≤ h.stop
  below : h.stop < h.start + 2 ^ 31
  addressable : h.stop < 2 ^ 64

/-- Reachable after `page_init` on a heap whose memory is zero. -/
def Reachable (h : HeapSymbols) (s : State) : Prop :=
  ∃ m : Mem, (∀ x, h.start ≤ x → x < h.stop → m x = 0) ∧
    Execution (Step h) ⟨pageInit h m, []⟩ s

structure Invariant (h : HeapSymbols) (s : State) : Prop where
  taken_iff : ∀ k : ℕ, k < totalPages h →
    (isTaken s.mem h.start k = true ↔
      k < pagesForBookkeeping h ∨ ∃ b ∈ s.live, b.Covers k)
  last_iff : ∀ k : ℕ, k < totalPages h →
    (isLast s.mem h.start k = true ↔
      k + 1 = pagesForBookkeeping h ∨ ∃ b ∈ s.live, k = b.finalPage)
  disjoint : s.live.Pairwise (Block.Apart h)
  nonempty : ∀ b ∈ s.live, 1 ≤ b.pages
  above_bookkeeping : ∀ b ∈ s.live,
    pagesForBookkeeping h ≤ b.first ∧ h.start + bookkeepingBytes h ≤ b.addr h
  inside : ∀ b ∈ s.live, b.first + b.pages ≤ totalPages h ∧ b.endAddr h ≤ h.stop

theorem Invariant.perm {h : HeapSymbols} {m : Mem} {l l' : List Block} (hs : Invariant h ⟨m, l⟩)
    (hl : l.Perm l') : Invariant h ⟨m, l'⟩ := by
  have hmem (b : Block) : b ∈ l' ↔ b ∈ l := hl.mem_iff.symm
  refine ⟨fun k hk => ?_, fun k hk => ?_, hl.pairwise hs.disjoint Or.symm, ?_, ?_, ?_⟩
  · simp only [hmem]
    exact hs.taken_iff k hk
  · simp only [hmem]
    exact hs.last_iff k hk
  · exact fun b hb => hs.nonempty b ((hmem b).1 hb)
  · exact fun b hb => hs.above_bookkeeping b ((hmem b).1 hb)
  · exact fun b hb => hs.inside b ((hmem b).1 hb)

section Numbers
variable {h : HeapSymbols}

theorem HeapSymbols.Fits.pages (hf : h.Fits) :
    16 ≤ totalPages h ∧ totalPages h < 2 ^ 19 ∧
      h.start + PAGE_SIZE * totalPages h ≤ h.stop := by
  have h1 := hf.atLeast; have h2 := hf.below
  simp only [totalPages, PAGE_SIZE] at *
  omega

theorem HeapSymbols.Fits.bookkeeping (hf : h.Fits) :
    1 ≤ pagesForBookkeeping h ∧ pagesForBookkeeping h < totalPages h ∧
      bookkeepingBytes h ≤ roundToPage (bookkeepingBytes h) ∧
      roundToPage (bookkeepingBytes h) < bookkeepingBytes h + PAGE_SIZE := by
  have h1 := hf.pages.1
  simp only [pagesForBookkeeping, roundToPage, bookkeepingBytes, PAGE_SIZE]
  omega

/-- The bytes holding the bits of all pages end before the memory of page number 1. -/
theorem bits_below_pages (hf : h.Fits) {i : ℕ} (hi : 1 ≤ i) :
    h.start + (totalPages h + 3) / 4 ≤ pageAddr h i := by
  have := hf.bookkeeping
  simp only [pageAddr, bookkeepingBytes, PAGE_SIZE] at *
  omega

/-- `page_free` computes the page number back from the address. -/
theorem location_of_page (hf : h.Fits) {i : ℕ} (hi : pageAddr h i ≤ h.stop) :
    wrap64 (pageAddr h i - bookkeepingBytes h - h.start) / PAGE_SIZE = i := by
  have h1 := hf.bookkeeping; have h2 := hf.addressable
  have hd : (pageAddr h i : ℤ) - bookkeepingBytes h - h.start =
      ((pageAddr h i - bookkeepingBytes h - h.start : ℕ) : ℤ) := by
    simp only [pageAddr] at *
    omega
  rw [hd, wrap64_of_lt (by omega)]
  simp only [pageAddr, PAGE_SIZE] at *
  omega

end Numbers

section Preservation
variable {h : HeapSymbols}

private theorem initial_invariant (hf : h.Fits) {m : Mem}
    (hz : ∀ x, h.start ≤ x → x < h.stop → m x = 0) : Invariant h ⟨pageInit h m, []⟩ := by
  obtain ⟨hb1, hb2, -, -⟩ := hf.bookkeeping
  have hp := hf.pages
  have hlast : (pagesForBookkeeping h : ℤ) - 1 = ((pagesForBookkeeping h - 1 : ℕ) : ℤ) := by omega
  have hfresh : ∀ j, j < 2 * totalPages h →
      bitAt (fill m h.start (bookkeepingBytes h) 0) h.start j = false := by
    intro j hj
    have hzero : fill m h.start (bookkeepingBytes h) 0 (h.start + j / 8) = 0 := by
      by_cases hx : j / 8 < bookkeepingBytes h
      · rw [fill, blit_inside (by omega) (by omega)]
      · rw [fill, blit_outside (by omega)]
        simp only [PAGE_SIZE] at hp
        exact hz _ (by omega) (by omega)
    rw [bitAt, hzero]
    simp
  constructor
  · intro k hk
    simp only [pageInit, hlast, isTaken_eq, setLast_eq, bitAt_setBit, bitAt_setTakenRun]
    rw [hfresh (2 * k) (by omega)]
    simp; omega
  · intro k hk
    simp only [pageInit, hlast, isLast_eq, setLast_eq, bitAt_setBit, bitAt_setTakenRun]
    rw [hfresh (2 * k + 1) (by omega)]
    simp; omega
  all_goals simp

/-- What a successful call leaves: its pages are marked and zero, all else is as before. -/
structure AllocEffect (h : HeapSymbols) (m m' : Mem) (b : Block) : Prop where
  was_free : ∀ k, b.Covers k → isTaken m h.start k = false
  taken : ∀ k : ℕ, k < totalPages h →
    (isTaken m' h.start k = true ↔ b.Covers k ∨ isTaken m h.start k = true)
  last : ∀ k : ℕ, k < totalPages h →
    (isLast m' h.start k = true ↔ k = b.finalPage ∨ isLast m h.start k = true)
  zeroed : ∀ x, b.addr h ≤ x → x < b.endAddr h → m' x = 0
  untouched : ∀ x, x < h.start ∨ h.start + (totalPages h + 3) / 4 ≤ x →
    x < b.addr h ∨ b.endAddr h ≤ x → m' x = m x

theorem alloc_effect (hf : h.Fits) {m m' : Mem} {n i : ℕ} (hn : 1 ≤ n)
    (hbook : ∀ k : ℕ, k < pagesForBookkeeping h → isTaken m h.start k = true)
    (hz : pageZnalloc h m n = (some (pageAddr h i), m')) :
    pagesForBookkeeping h ≤ i ∧ i + n ≤ totalPages h ∧ AllocEffect h m m' ⟨i, n⟩ := by
  obtain ⟨i', hi, ht, hfree, rfl⟩ := pageZnalloc_some hn hz
  obtain rfl : i = i' := by simp only [pageAddr, PAGE_SIZE] at hi; omega
  have hi1 : pagesForBookkeeping h ≤ i := by
    by_contra hlt
    have hfalse := hfree i (by omega) (by omega)
    rw [hbook i (by omega)] at hfalse
    cases hfalse
  have hbits := bits_below_pages hf (i := i) (by have := hf.bookkeeping; omega)
  refine ⟨hi1, ht, ?_, ?_, ?_, ?_, ?_⟩
  · rintro k ⟨h1, h2⟩
    exact hfree k h1 h2
  · intro k hk
    simp only [isTaken_eq, Block.Covers]
    rw [bitAt_fill (by omega) hbits, setLast_eq, bitAt_setBit, bitAt_setTakenRun]
    simp; omega
  · intro k hk
    simp only [isLast_eq, Block.finalPage]
    rw [bitAt_fill (by omega) hbits, setLast_eq, bitAt_setBit, bitAt_setTakenRun]
    simp
  · intro x hx hx'
    exact blit_inside hx hx'
  · intro x hx hx'
    have hout : x < pageAddr h i ∨ pageAddr h i + PAGE_SIZE * n ≤ x := hx'
    rw [fill, blit_outside hout, setLast_eq, setBit_apart (by omega),
      setTakenRun_apart (by omega)]

/-- What freeing from the `k`-th page of a block leaves: the pages from there on are free. -/
structure FreeEffect (h : HeapSymbols) (m m' : Mem) (b : Block) (k : ℕ) : Prop where
  taken : ∀ p : ℕ, p < totalPages h →
    (isTaken m' h.start p = true ↔
      isTaken m h.start p = true ∧ ¬ (b.Covers p ∧ b.first + k ≤ p))
  last : ∀ p : ℕ, p < totalPages h →
    (isLast m' h.start p = true ↔
      p + 1 = b.first + k ∧ isTaken m h.start p = true ∨ isLast m h.start p = true ∧ p ≠ b.finalPage)
  untouched : ∀ x, x < h.start ∨ h.start + (totalPages h + 3) / 4 ≤ x → m' x = m x

theorem Invariant.apart {s : State} (hs : Invariant h s) {a b : Block} (ha : a ∈ s.live)
    (hb : b ∈ s.live) (hne : a ≠ b) :
    a.first + a.pages ≤ b.first ∨ b.first + b.pages ≤ a.first := by
  have hd := hs.disjoint.forall ha hb hne
  simp only [Block.Apart, Block.endAddr, Block.addr, pageAddr, PAGE_SIZE] at hd
  omega

/-- Only the block itself has its last bit among its pages. -/
theorem Invariant.last_in_block {s : State} (hs : Invariant h s) {b : Block}
    (hb : b ∈ s.live) {k : ℕ} (hk : b.Covers k) :
    isLast s.mem h.start k = true ↔ k = b.finalPage := by
  obtain ⟨hk1, hk2⟩ := hk
  have hin := (hs.inside b hb).1
  have habove := (hs.above_bookkeeping b hb).1
  rw [hs.last_iff k (by omega)]
  refine ⟨?_, fun he => Or.inr ⟨b, hb, he⟩⟩
  rintro (he | ⟨a, ha, he⟩)
  · omega
  · by_cases hab : a = b
    · rw [← hab]; exact he
    · have hap := hs.apart ha hb hab
      have hne := hs.nonempty a ha
      simp only [Block.finalPage] at he
      omega

/-- The loop of `page_free` runs to the end of the block. -/
theorem free_effect_fuel (hf : h.Fits) {s : State} (hs : Invariant h s) {b : Block}
    (hb : b ∈ s.live) {k : ℕ} (hk : k < b.pages) :
    ∃ m', pageFree h (b.pages - 1 - k + 1) s.mem (pageAddr h (b.first + k)) = some m' ∧
      FreeEffect h s.mem m' b k := by
  have hpages := hf.pages; have hbook := hf.bookkeeping
  obtain ⟨hin, hend⟩ := hs.inside b hb
  obtain ⟨habove, -⟩ := hs.above_bookkeeping b hb
  have haddr : pageAddr h (b.first + k) ≤ h.stop := by
    simp only [Block.endAddr, Block.addr, pageAddr, PAGE_SIZE] at hend ⊢
    omega
  have hprev : toInt (wrap64 (((b.first + k : ℕ) : ℤ) - 1)) = ((b.first + k - 1 : ℕ) : ℤ) := by
    rw [show ((b.first + k : ℕ) : ℤ) - 1 = ((b.first + k - 1 : ℕ) : ℤ) by omega,
      wrap64_of_lt (by omega), toInt_of_lt (by omega)]
  -- the memory after the last bit of the preceding page has been set where that page is taken
  obtain ⟨m₁, hm₁⟩ : ∃ m₁, m₁ = if isTaken s.mem h.start ((b.first + k - 1 : ℕ) : ℤ) then
    setLast s.mem h.start ((b.first + k - 1 : ℕ) : ℤ) else s.mem := ⟨_, rfl⟩
  have htaken : ∀ p : ℕ, isTaken m₁ h.start p = isTaken s.mem h.start p := by
    intro p
    rw [hm₁]
    split
    · simp only [isTaken_eq, setLast_eq, bitAt_setBit]; simp; omega
    · rfl
  have hlast : ∀ p : ℕ, isLast m₁ h.start p = true ↔
      p + 1 = b.first + k ∧ isTaken s.mem h.start p = true ∨ isLast s.mem h.start p = true := by
    intro p
    rw [hm₁]
    split
    · rename_i ht
      simp only [isLast_eq, setLast_eq, bitAt_setBit, Bool.or_eq_true, decide_eq_true_eq]
      refine or_congr_left ⟨fun he => ?_, fun he => by omega⟩
      rw [show p = b.first + k - 1 by omega]
      exact ⟨by omega, ht⟩
    · rename_i ht
      refine ⟨Or.inr, ?_⟩
      rintro (⟨he, hp⟩ | hp)
      · rw [show b.first + k - 1 = p by omega] at ht
        exact absurd hp ht
      · exact hp
  have huntouched : ∀ x, x < h.start ∨ h.start + (totalPages h + 3) / 4 ≤ x → m₁ x = s.mem x := by
    intro x hx
    rw [hm₁]
    split
    · rw [setLast_eq, setBit_apart (by omega)]
    · rfl
  have hfinal : b.first + k + (b.pages - 1 - k) = b.finalPage := by
    simp only [Block.finalPage]; omega
  obtain ⟨m', hrun, hbits, hrest⟩ := @pageFreeLoop_run h.start (b.pages - 1 - k)
    (b.first + k) m₁ (by omega)
    (fun x h1 h2 => by
      rw [htaken, hs.taken_iff x (by omega)]
      exact Or.inr ⟨b, hb, by omega, by omega⟩)
    (fun x h1 h2 => by
      rw [← Bool.not_eq_true, hlast, hs.last_in_block hb ⟨by omega, by omega⟩]
      simp only [Block.finalPage]; omega)
    (by
      rw [hlast, hfinal, hs.last_in_block hb ⟨by omega, by omega⟩]
      exact Or.inr rfl)
  refine ⟨m', ?_, ?_, ?_, ?_⟩
  · rw [pageFree, location_of_page hf haddr, if_neg (by simp only [pageAddr] at *; omega)]
    simp only [hprev, ← hm₁]
    exact hrun
  · intro p hp
    rw [isTaken_eq, hbits, ← isTaken_eq, htaken]
    simp [Block.Covers]; omega
  · intro p hp
    have hne : p + 1 = b.first + k → p ≠ b.finalPage := by omega
    have hbit : decide ((2 * p + 1) % 2 = 0 ∧ b.first + k ≤ (2 * p + 1) / 2 ∧
        (2 * p + 1) / 2 ≤ b.first + k + (b.pages - 1 - k) ∨
        2 * p + 1 = 2 * (b.first + k + (b.pages - 1 - k)) + 1) = decide (p = b.finalPage) :=
      decide_eq_decide.mpr (by omega)
    rw [isLast_eq, hbits, ← isLast_eq, hbit, Bool.and_eq_true, hlast, Bool.not_eq_true',
      decide_eq_false_iff_not]
    tauto
  · intro x hx
    rw [hrest x (by omega), huntouched x hx]

theorem free_effect (hf : h.Fits) {s : State} (hs : Invariant h s) {b : Block} (hb : b ∈ s.live)
    {k : ℕ} (hk : k < b.pages) :
    ∃ fuel m', pageFree h fuel s.mem (pageAddr h (b.first + k)) = some m' ∧
      FreeEffect h s.mem m' b k :=
  ⟨_, free_effect_fuel hf hs hb hk⟩

private theorem alloc_preserves (hf : h.Fits) {s : State} (hs : Invariant h s) {m' : Mem}
    {n i : ℕ} (hn : 1 ≤ n) (hz : pageZnalloc h s.mem n = (some (pageAddr h i), m'))
    (hend : (Block.mk i n).endAddr h ≤ h.stop) : Invariant h ⟨m', ⟨i, n⟩ :: s.live⟩ := by
  have hbook : ∀ k : ℕ, k < pagesForBookkeeping h → isTaken s.mem h.start k = true := fun k hk =>
    (hs.taken_iff k (by have := hf.bookkeeping; omega)).mpr (Or.inl hk)
  obtain ⟨habove, hin, he⟩ := alloc_effect hf hn hbook hz
  have hround := hf.bookkeeping
  constructor
  · intro k hk
    rw [he.taken k hk, hs.taken_iff k hk]
    simp only [List.mem_cons, exists_eq_or_imp]
    tauto
  · intro k hk
    rw [he.last k hk, hs.last_iff k hk]
    simp only [List.mem_cons, exists_eq_or_imp]
    tauto
  · refine List.pairwise_cons.mpr ⟨fun b hb => ?_, hs.disjoint⟩
    -- two blocks that overlap would share a page, and the new pages were free
    by_contra hap
    have hb1 := hs.nonempty b hb
    have hb2 := (hs.inside b hb).1
    simp only [Block.Apart, Block.endAddr, Block.addr, pageAddr, PAGE_SIZE] at hap
    have hfree := he.was_free (max i b.first) ⟨by simp, by simp; omega⟩
    rw [(hs.taken_iff (max i b.first) (by omega)).mpr (Or.inr ⟨b, hb, by simp, by simp; omega⟩)]
      at hfree
    cases hfree
  · intro b hb
    rcases List.mem_cons.mp hb with rfl | hb
    · exact hn
    · exact hs.nonempty b hb
  · intro b hb
    rcases List.mem_cons.mp hb with rfl | hb
    · exact ⟨habove, by simp only [Block.addr, pageAddr]; omega⟩
    · exact hs.above_bookkeeping b hb
  · intro b hb
    rcases List.mem_cons.mp hb with rfl | hb
    · exact ⟨hin, hend⟩
    · exact hs.inside b hb

private theorem free_preserves {s : State} (hs : Invariant h s) {m' : Mem}
    {before after : List Block} {b : Block} {k : ℕ} (hl : s.live = before ++ b :: after)
    (hk : k < b.pages) (he : FreeEffect h s.mem m' b k) :
    Invariant h ⟨m', before ++ b.keep k ++ after⟩ := by
  have hb : b ∈ s.live := by simp [hl]
  have hold : ∀ a, a ∈ s.live ↔ a ∈ before ++ after ∨ a = b := by
    intro a; rw [hl]; simp only [List.mem_append, List.mem_cons]; tauto
  have hnew : ∀ c, c ∈ before ++ b.keep k ++ after ↔
      c ∈ before ++ after ∨ c = ⟨b.first, k⟩ ∧ 1 ≤ k := by
    intro c
    rw [Block.keep]
    split <;> simp only [List.mem_append, List.mem_singleton, List.not_mem_nil] <;> grind
  have hp := hs.disjoint
  rw [hl] at hp
  have hother : ∀ a ∈ before ++ after,
      a.first + a.pages ≤ b.first ∨ b.first + b.pages ≤ a.first := by
    intro a ha
    have hap : Block.Apart h a b := by
      rcases List.mem_append.mp ha with ha | ha
      · exact (List.pairwise_append.mp hp).2.2 a ha b (by simp)
      · exact ((List.pairwise_cons.mp (List.pairwise_append.mp hp).2.1).1 a ha).symm
    simp only [Block.Apart, Block.endAddr, Block.addr, pageAddr, PAGE_SIZE] at hap
    omega
  have hin := (hs.inside b hb).1
  have habove := (hs.above_bookkeeping b hb).1
  constructor
  · intro p hp'
    rw [he.taken p hp', hs.taken_iff p hp']
    constructor
    · rintro ⟨hlt | ⟨a, ha, hc⟩, hno⟩
      · exact Or.inl hlt
      · rcases (hold a).mp ha with ha | rfl
        · exact Or.inr ⟨a, (hnew a).mpr (Or.inl ha), hc⟩
        · obtain ⟨h1, h2⟩ := hc
          have hlt : p < a.first + k := by
            by_contra hge
            exact hno ⟨⟨h1, h2⟩, by omega⟩
          exact Or.inr ⟨_, (hnew _).mpr (Or.inr ⟨rfl, by omega⟩), h1, hlt⟩
    · rintro (hlt | ⟨c, hc, hcov⟩)
      · exact ⟨Or.inl hlt, fun hno => by have := hno.1.1; omega⟩
      · rcases (hnew c).mp hc with hc | ⟨rfl, -⟩
        · refine ⟨Or.inr ⟨c, (hold c).mpr (Or.inl hc), hcov⟩, fun hno => ?_⟩
          have := hother c hc; have := hno.1.1; have := hno.1.2; have := hcov.1; have := hcov.2
          omega
        · obtain ⟨h1, h2⟩ := hcov
          simp only at h1 h2
          exact ⟨Or.inr ⟨b, hb, h1, by omega⟩, fun hno => by have := hno.2; omega⟩
  · intro p hp'
    rw [he.last p hp', hs.last_iff p hp', hs.taken_iff p hp']
    have hb1 := hs.nonempty b hb
    constructor
    · rintro (⟨hpk, ht⟩ | ⟨hlt | ⟨a, ha, hfin⟩, hne⟩)
      · -- the page before the freed one: inside the block, or the end of a neighbour
        by_cases hk0 : k = 0
        · have hold_last := (hs.last_iff p hp').mp
          rcases ht with ht | ⟨a, ha, hcov⟩
          · left; omega
          · rcases (hold a).mp ha with ha | rfl
            · refine Or.inr ⟨a, (hnew a).mpr (Or.inl ha), ?_⟩
              have := hother a ha; have := hcov.1; have := hcov.2
              simp only [Block.finalPage]; omega
            · have := hcov.1; omega
        · exact Or.inr ⟨_, (hnew _).mpr (Or.inr ⟨rfl, by omega⟩), by
            simp only [Block.finalPage]; omega⟩
      · exact Or.inl hlt
      · rcases (hold a).mp ha with ha | rfl
        · exact Or.inr ⟨a, (hnew a).mpr (Or.inl ha), hfin⟩
        · exact absurd hfin hne
    · rintro (hlt | ⟨c, hc, hfin⟩)
      · exact Or.inr ⟨Or.inl hlt, by simp only [Block.finalPage]; omega⟩
      · rcases (hnew c).mp hc with hc | ⟨rfl, hk1⟩
        · have hca := (hold c).mpr (Or.inl hc)
          have hc1 := hs.nonempty c hca
          have := hother c hc
          exact Or.inr ⟨Or.inr ⟨c, hca, hfin⟩, by simp only [Block.finalPage] at *; omega⟩
        · simp only [Block.finalPage] at hfin
          exact Or.inl ⟨by omega, Or.inr ⟨b, hb, by omega, by omega⟩⟩
  · have hshort : (b.keep k).Sublist [b] ∨ b.keep k = [⟨b.first, k⟩] := by
      rw [Block.keep]
      split
      · exact Or.inl (List.nil_sublist _)
      · exact Or.inr rfl
    have hle : ∀ a, Block.Apart h a b → Block.Apart h a ⟨b.first, k⟩ := by
      intro a ha
      simp only [Block.Apart, Block.endAddr, Block.addr, PAGE_SIZE] at ha ⊢
      omega
    rw [List.append_assoc]
    rcases hshort with hsub | heq
    · exact hp.sublist ((List.Sublist.refl before).append (hsub.append (List.Sublist.refl after)))
    · rw [heq]
      obtain ⟨hp1, hp2, hp3⟩ := List.pairwise_append.mp hp
      obtain ⟨hp4, hp5⟩ := List.pairwise_cons.mp hp2
      refine List.pairwise_append.mpr ⟨hp1, List.pairwise_cons.mpr ⟨?_, hp5⟩, ?_⟩
      · exact fun a ha => (hle a (hp4 a ha).symm).symm
      · intro a ha c hc
        rcases List.mem_cons.mp hc with rfl | hc
        · exact hle a (hp3 a ha b (by simp))
        · exact hp3 a ha c (List.mem_cons_of_mem _ hc)
  · intro c hc
    rcases (hnew c).mp hc with hc | ⟨rfl, hk1⟩
    · exact hs.nonempty c ((hold c).mpr (Or.inl hc))
    · exact hk1
  · intro c hc
    rcases (hnew c).mp hc with hc | ⟨rfl, -⟩
    · exact hs.above_bookkeeping c ((hold c).mpr (Or.inl hc))
    · exact hs.above_bookkeeping b hb
  · intro c hc
    rcases (hnew c).mp hc with hc | ⟨rfl, -⟩
    · exact hs.inside c ((hold c).mpr (Or.inl hc))
    · have hend := (hs.inside b hb).2
      simp only [Block.endAddr, Block.addr, PAGE_SIZE] at hend ⊢
      exact ⟨by omega, by omega⟩

theorem pageFree_more {fuel : ℕ} {m m' : Mem} {p : ℕ} (k : ℕ)
    (hp : pageFree h fuel m p = some m') : pageFree h (fuel + k) m p = some m' := by
  rw [pageFree] at hp ⊢
  split_ifs at hp ⊢ with h1
  · exact hp
  · exact pageFreeLoop_more k hp

/-- The result of `page_free` does not depend on the fuel that suffices for it. -/
theorem pageFree_unique {fuel fuel' : ℕ} {m m₁ m₂ : Mem} {p : ℕ}
    (h₁ : pageFree h fuel m p = some m₁) (h₂ : pageFree h fuel' m p = some m₂) : m₁ = m₂ := by
  have k₁ := pageFree_more fuel' h₁
  have k₂ := pageFree_more fuel h₂
  rw [Nat.add_comm fuel', k₁] at k₂
  exact Option.some.inj k₂

private theorem store_preserves (hf : h.Fits) {s : State} (hs : Invariant h s) {b : Block}
    (hb : b ∈ s.live) {x : ℕ} (hx : b.addr h ≤ x) (v : Byte) :
    Invariant h ⟨Function.update s.mem x v, s.live⟩ := by
  have habove := bits_below_pages hf (i := b.first) (by
    have := (hs.above_bookkeeping b hb).1; have := hf.bookkeeping; omega)
  have hsame : ∀ j, j < 2 * totalPages h →
      bitAt (Function.update s.mem x v) h.start j = bitAt s.mem h.start j := fun j hj =>
    bitAt_congr (Function.update_of_ne (by simp only [Block.addr] at hx; omega) _ _)
  refine ⟨?_, ?_, hs.disjoint, hs.nonempty, hs.above_bookkeeping, hs.inside⟩
  · intro k hk
    rw [isTaken_eq, hsame _ (by omega), ← isTaken_eq]
    exact hs.taken_iff k hk
  · intro k hk
    rw [isLast_eq, hsame _ (by omega), ← isLast_eq]
    exact hs.last_iff k hk

theorem step_preserves_invariant (hf : h.Fits) {s t : State} {op : Op} (hs : Invariant h s)
    (st : Step h s op t) : Invariant h t := by
  cases st with
  | znalloc n i m' hn hz hend => exact alloc_preserves hf hs hn hz hend
  | zalloc i m' hz hend => exact alloc_preserves hf hs (le_refl 1) hz hend
  | znallocNull n m' hn hz => rw [pageZnalloc_none hz]; exact hs
  | zallocNull m' hz => rw [pageZnalloc_none hz]; exact hs
  | free before after b k fuel m' hl hk hfree =>
    obtain ⟨fuel', m'', hfree', he⟩ := free_effect hf hs (b := b) (by simp [hl]) hk
    obtain rfl := pageFree_unique hfree hfree'
    exact free_preserves hs hl hk he
  | store b x v hb hx hx' => exact store_preserves hf hs hb hx v

theorem reachable_invariant (hf : h.Fits) {s : State} (hr : Reachable h s) : Invariant h s := by
  obtain ⟨m, hz, hexec⟩ := hr
  exact hexec.invariant (fun _ _ _ hs st => step_preserves_invariant hf hs st)
    (initial_invariant hf hz)

/-- In every state of every run the bits describe the live blocks, an allocation touches its
own pages only, and a free of any page of a live block ends and truncates that block. -/
theorem page_allocator_run (hf : h.Fits) {s : State} (hr : Reachable h s) :
    Invariant h s ∧
    (∀ (n i : ℕ) (m' : Mem), 1 ≤ n → pageZnalloc h s.mem n = (some (pageAddr h i), m') →
      (Block.mk i n).endAddr h ≤ h.stop → AllocEffect h s.mem m' ⟨i, n⟩) ∧
    ∀ b ∈ s.live, ∀ k < b.pages, ∃ fuel m',
      pageFree h fuel s.mem (pageAddr h (b.first + k)) = some m' ∧ FreeEffect h s.mem m' b k := by
  have hs := reachable_invariant hf hr
  refine ⟨hs, fun n i m' hn hz _ => ?_, fun b hb k hk => free_effect hf hs hb hk⟩
  have hbook : ∀ k : ℕ, k < pagesForBookkeeping h → isTaken s.mem h.start k = true := fun k hk =>
    (hs.taken_iff k (by have := hf.bookkeeping; omega)).mpr (Or.inl hk)
  exact (alloc_effect hf hn hbook hz).2.2

end Preservation

/-- A heap of 64 pages right after `page_init`. -/
def smallHeap : HeapSymbols := ⟨0x80200000, 0x80240000⟩

def smallStart : State := ⟨pageInit smallHeap fun _ => 0, []⟩

private theorem small_alloc :
    (pageZnalloc smallHeap smallStart.mem (2 : ℕ)).1 = some (pageAddr smallHeap 1) := by
  decide +kernel

/-- The run that allocates two pages first, which become page numbers 1 and 2. -/
theorem page_allocator_run_small : ∃ m', Invariant smallHeap ⟨m', [⟨1, 2⟩]⟩ := by
  have hz := Prod.mk.eta (p := pageZnalloc smallHeap smallStart.mem (2 : ℕ))
  rw [small_alloc] at hz
  generalize (pageZnalloc smallHeap smallStart.mem (2 : ℕ)).2 = m' at hz
  have hend : (Block.mk 1 2).endAddr smallHeap ≤ smallHeap.stop := by decide +kernel
  refine ⟨m', (page_allocator_run (h := smallHeap) ?_ ?_).1⟩
  · constructor <;> decide +kernel
  · exact ⟨fun _ => 0, fun _ _ _ => rfl, .single (.znalloc smallStart 2 1 m' (by decide) hz.symm hend)⟩

end PageAllocator
