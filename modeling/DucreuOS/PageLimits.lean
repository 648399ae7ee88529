import DucreuOS.PageAllocator

/-! # The page allocator at its limits

For every bitmap: which blocks `page_znalloc` finds and where they end, and which addresses
`page_free` lets pass without a change. The search tries start pages in the first tenth of the heap
only, and a block is placed behind the bookkeeping although its page numbers count the bookkeeping
pages, too. The linker script gives the heap less than 220 MiB: no `int` overflows. -/
namespace PageAllocator

open ByteMemory Transition

variable {h : HeapSymbols} {m m' : Mem} {base total n i k r : ℕ}

/-- `n` free pages from page number `i` on. -/
def FreeRun (m : Mem) (base total n i : ℕ) : Prop :=
  i + n ≤ total ∧ ∀ x : ℕ, i ≤ x → x < i + n → isTaken m base x = false

/-- The first `n` consecutive free pages that begin in the first tenth of the heap. -/
structure FirstRun (h : HeapSymbols) (m : Mem) (n i : ℕ) : Prop where
  start : i < totalPages h / 10
  run : FreeRun m h.start (totalPages h) n i
  first (k : ℕ) : k < i → ¬ FreeRun m h.start (totalPages h) n k

/-! ## The search -/

theorem znallocCount_complete {fuel j c : ℕ} (hc : c < n) (hf : n - c ≤ fuel)
    (hfree : ∀ x : ℕ, j ≤ x → x < j + (n - c) → isTaken m base x = false) :
    znallocCount m base n fuel j c = some n := by
  induction fuel generalizing j c with
  | zero => omega
  | succ fuel ih =>
    rw [znallocCount, hfree j le_rfl (by omega), if_neg (by decide)]
    by_cases hlast : n = c + 1
    · rw [if_pos (by omega), hlast]
    · rw [if_neg (by omega)]
      exact ih (by omega) (by omega) fun x hx hx' => hfree x (by omega) (by omega)

theorem not_freeRun_of_taken (hn : 1 ≤ n) (ht : isTaken m base i = true) :
    ¬ FreeRun m base total n i := by
  intro hrun
  have hfree := hrun.2 i le_rfl (by omega)
  rw [ht] at hfree
  cases hfree

theorem znallocCount_none (hn : 1 ≤ n) (hc : znallocCount m base n (total - i) i 0 = none) :
    ¬ FreeRun m base total n i := by
  rintro ⟨hle, hfree⟩
  have hsome := @znallocCount_complete m base n (total - i) i 0 hn (by omega) fun x hx hx' =>
    hfree x hx (by omega)
  rw [hsome] at hc
  cases hc

/-- No run begins at a start page that was passed. -/
theorem znallocSearch_passed {fuel p c : ℕ} (hn : 1 ≤ n)
    (hs : znallocSearch m base total n fuel i = some (p, c)) (hk : i ≤ k) (hkp : k < p) :
    ¬ FreeRun m base total n k := by
  induction fuel generalizing i with
  | zero => cases hs
  | succ fuel ih =>
    rw [znallocSearch] at hs
    by_cases hki : k = i
    · subst hki
      split_ifs at hs with ht
      · exact not_freeRun_of_taken hn ht
      · cases hcount : znallocCount m base n (total - k) k 0 with
        | none => exact znallocCount_none hn hcount
        | some r =>
          rw [hcount] at hs
          cases hs
          exact absurd hkp (lt_irrefl _)
    · split_ifs at hs
      · exact ih hs (by omega)
      · cases hcount : znallocCount m base n (total - i) i 0 with
        | none =>
          rw [hcount] at hs
          exact ih hs (by omega)
        | some r =>
          rw [hcount] at hs
          cases hs
          omega

theorem znallocSearch_none {fuel : ℕ} (hn : 1 ≤ n)
    (hs : znallocSearch m base total n fuel i = none) (hk : i ≤ k) (hkf : k < i + fuel) :
    ¬ FreeRun m base total n k := by
  induction fuel generalizing i with
  | zero => omega
  | succ fuel ih =>
    rw [znallocSearch] at hs
    by_cases ht : isTaken m base i = true
    · rw [if_pos ht] at hs
      by_cases hki : k = i
      · exact hki ▸ not_freeRun_of_taken hn ht
      · exact ih hs (by omega) (by omega)
    · rw [if_neg ht] at hs
      cases hcount : znallocCount m base n (total - i) i 0 with
      | none =>
        rw [hcount] at hs
        by_cases hki : k = i
        · exact hki ▸ znallocCount_none hn hcount
        · exact ih hs (by omega) (by omega)
      | some r =>
        rw [hcount] at hs
        cases hs

/-- A call that succeeds returns the first run. -/
theorem pageZnalloc_first (hn : 1 ≤ n) (hz : pageZnalloc h m n = (some r, m')) :
    ∃ i, FirstRun h m n i ∧ r = pageAddr h i := by
  rw [pageZnalloc] at hz
  split at hz
  · cases hz
  · rename_i p c hs
    cases hz
    obtain ⟨-, -, hstart, ht, hfree⟩ := znallocSearch_some hn hs
    have hfirst (k : ℕ) (hk : k < p) := znallocSearch_passed hn hs (Nat.zero_le k) hk
    exact ⟨p, ⟨by omega, ⟨ht, hfree⟩, hfirst⟩, rfl⟩

theorem pageZnalloc_none_iff (hn : 1 ≤ n) : (∃ m', pageZnalloc h m n = (none, m')) ↔
    ∀ i < totalPages h / 10, ¬ FreeRun m h.start (totalPages h) n i := by
  constructor
  · rintro ⟨m', hz⟩ i hi
    rw [pageZnalloc] at hz
    split at hz
    · rename_i hs
      exact znallocSearch_none hn hs (Nat.zero_le i) (by omega)
    · cases hz
  · intro hnone
    cases hz : pageZnalloc h m n with
    | mk result m' =>
      cases result with
      | none => exact ⟨m', rfl⟩
      | some r =>
        obtain ⟨i, hi, -⟩ := pageZnalloc_first hn hz
        exact absurd hi.run (hnone i hi.start)

/-- There is at most one first run, and it is what the call returns. -/
theorem FirstRun.returned (hn : 1 ≤ n) (hi : FirstRun h m n i) :
    ∃ m', pageZnalloc h m n = (some (pageAddr h i), m') := by
  cases hz : pageZnalloc h m n with
  | mk result m' =>
    cases result with
    | none => exact absurd hi.run ((pageZnalloc_none_iff hn).1 ⟨m', hz⟩ i hi.start)
    | some r =>
      obtain ⟨k, hk, rfl⟩ := pageZnalloc_first hn hz
      have hik : k = i := by
        rcases lt_trichotomy k i with hlt | heq | hgt
        · exact absurd hk.run (hi.first k hlt)
        · exact heq
        · exact absurd hi.run (hk.first i hgt)
      exact ⟨m', by rw [hik]⟩

/-! ## Where a block ends -/

/-- Page numbers count the bookkeeping pages, and their memory begins behind these pages. -/
theorem pageAddr_end_iff (hpages : 0 < totalPages h) :
    pageAddr h i + n * PAGE_SIZE ≤ h.stop ↔ pagesForBookkeeping h + i + n ≤ totalPages h := by
  have hround : roundToPage (bookkeepingBytes h) = pagesForBookkeeping h * PAGE_SIZE := by
    simp only [pagesForBookkeeping, roundToPage, PAGE_SIZE]
    omega
  rw [pageAddr, hround]
  simp only [totalPages, PAGE_SIZE] at *
  omega

/-- A heap of 20 pages. -/
def tinyHeap : HeapSymbols := ⟨0x80200000, 0x80214000⟩

def tinyStart : Mem := pageInit tinyHeap fun _ => 0

/-- A call that fails changes nothing. It fails only when there are no `n` consecutive free pages
exactly when such pages, if there are any, also begin in the first tenth of the heap. -/
theorem pageZnalloc_fails_iff (h : HeapSymbols) (m : Mem) (n : ℕ) (hn : 1 ≤ n) :
    (∀ m', pageZnalloc h m n = (none, m') →
      (∀ i, ¬ FreeRun m h.start (totalPages h) n i) ∧ m' = m) ↔
    ((∃ i, FreeRun m h.start (totalPages h) n i) →
      ∃ i < totalPages h / 10, FreeRun m h.start (totalPages h) n i) := by
  constructor
  · rintro honly ⟨i, hi⟩
    by_contra hnone
    push Not at hnone
    obtain ⟨m', hz⟩ := (pageZnalloc_none_iff hn).2 hnone
    exact (honly m' hz).1 i hi
  · intro htenth m' hz
    refine ⟨fun i hi => ?_, pageZnalloc_none hz⟩
    obtain ⟨k, hk, hrun⟩ := htenth ⟨i, hi⟩
    exact (pageZnalloc_none_iff hn).1 ⟨m', hz⟩ k hk hrun

theorem pageZnalloc_fails_iff_tiny :
    (∀ m', pageZnalloc tinyHeap tinyStart 20 = (none, m') →
      (∀ i, ¬ FreeRun tinyStart tinyHeap.start (totalPages tinyHeap) 20 i) ∧ m' = tinyStart) ↔
    ((∃ i, FreeRun tinyStart tinyHeap.start (totalPages tinyHeap) 20 i) →
      ∃ i < totalPages tinyHeap / 10,
        FreeRun tinyStart tinyHeap.start (totalPages tinyHeap) 20 i) :=
  pageZnalloc_fails_iff tinyHeap tinyStart 20 (by decide)

/-- After one page is allocated, the next call fails although page 2 is free. -/
theorem pageZnalloc_gives_up : ∃ r m' m'', pageZnalloc tinyHeap tinyStart 1 = (some r, m') ∧
    pageZnalloc tinyHeap m' 1 = (none, m'') ∧
    FreeRun m' tinyHeap.start (totalPages tinyHeap) 1 2 := by
  have hz : (pageZnalloc tinyHeap tinyStart 1).1 = some 0x80202000 := by decide +kernel
  have hnone : (pageZnalloc tinyHeap (pageZnalloc tinyHeap tinyStart 1).2 1).1 = none := by
    decide +kernel
  have hfree : isTaken (pageZnalloc tinyHeap tinyStart 1).2 tinyHeap.start (2 : ℕ) = false := by
    decide +kernel
  refine ⟨_, _, _, Prod.fst_eq_iff.1 hz, Prod.fst_eq_iff.1 hnone, by decide, fun x hx hx' => ?_⟩
  obtain rfl : x = 2 := by omega
  exact hfree

/-! ## Addresses outside the blocks -/

/-- The page number `page_free` computes from an address, in 64 bits. -/
def pageNumber (h : HeapSymbols) (p : ℕ) : ℕ :=
  wrap64 (p - bookkeepingBytes h - h.start) / PAGE_SIZE

/-- The address is not in the heap, or the page of its number, cut off to an `int`, is free and the
one before it is free or marked last. -/
def Harmless (h : HeapSymbols) (m : Mem) (p : ℕ) : Prop :=
  p < h.start ∨ h.stop < p ∨
    isTaken m h.start (toInt (pageNumber h p)) = false ∧
      (isTaken m h.start (toInt (wrap64 (pageNumber h p - 1))) = true →
        isLast m h.start (toInt (wrap64 (pageNumber h p - 1))) = true)

section Marks

variable {page_n bit bit' : ℤ}

theorem testMark_eq (m : Mem) (base : ℕ) (page_n bit : ℤ) : testMark m base page_n bit
    = (m (base + whichByte page_n).toNat).getLsbD (bit % 32).toNat := by
  rw [testMark, BitVec.getLsbD_ushiftRight, Nat.add_zero]

theorem mark_getLsbD (bit : ℤ) (j : ℕ) :
    (mark bit).getLsbD j = decide (j < 8 ∧ j = (bit % 32).toNat) := by
  rw [mark, BitVec.getLsbD_shiftLeft]
  generalize (bit % 32).toNat = shift
  rw [Bool.eq_iff_iff]
  simp only [BitVec.getLsbD_one, Bool.and_eq_true, Bool.not_eq_true', decide_eq_true_eq,
    decide_eq_false_iff_not]
  omega

/-- Only a bit of the byte can be marked. -/
theorem testMark_lt (ht : testMark m base page_n bit = true) : (bit % 32).toNat < 8 := by
  rw [testMark_eq] at ht
  exact BitVec.lt_of_getLsbD ht

theorem testMark_setMark_ne (hne : (bit % 32).toNat ≠ (bit' % 32).toNat) (page_n' : ℤ) :
    testMark (setMark m base page_n' bit') base page_n bit = testMark m base page_n bit := by
  rw [testMark_eq, testMark_eq, setMark, Function.update_apply]
  split_ifs with ha
  · rw [ha, BitVec.getLsbD_or, mark_getLsbD]
    simp [hne]
  · rfl

/-- A mark is set without a change when it was set before. -/
theorem setMark_self_iff (hb : (bit % 32).toNat < 8) :
    setMark m base page_n bit = m ↔ testMark m base page_n bit = true := by
  rw [testMark_eq, setMark, Function.update_eq_self_iff]
  constructor
  · intro heq
    rw [← heq, BitVec.getLsbD_or, mark_getLsbD]
    simp [hb]
  · intro ht
    apply BitVec.eq_of_getLsbD_eq
    intro j hj
    rw [BitVec.getLsbD_or, mark_getLsbD]
    by_cases he : j = (bit % 32).toNat
    · rw [he, ht, Bool.true_or]
    · simp [he]

/-- The bits of `m'` are bits of `m`. -/
def OnlyCleared (m m' : Mem) : Prop :=
  ∀ x j, (m' x).getLsbD j = true → (m x).getLsbD j = true

theorem OnlyCleared.trans {m₁ m₂ m₃ : Mem} (h₁ : OnlyCleared m₁ m₂) (h₂ : OnlyCleared m₂ m₃) :
    OnlyCleared m₁ m₃ := fun x j hj => h₁ x j (h₂ x j hj)

theorem clearMark_onlyCleared : OnlyCleared m (clearMark m base page_n bit) := by
  intro x j hj
  rw [clearMark, Function.update_apply] at hj
  split_ifs at hj with hx
  · rw [BitVec.getLsbD_and, Bool.and_eq_true] at hj
    exact hx ▸ hj.1
  · exact hj

theorem testMark_clearMark (ht : testMark m base page_n bit = true) :
    testMark (clearMark m base page_n bit) base page_n bit = false := by
  have hb := testMark_lt ht
  rw [testMark_eq, clearMark, Function.update_self, BitVec.getLsbD_and, BitVec.getLsbD_not,
    mark_getLsbD]
  simp [hb]

end Marks

/-- The taken bit and the last bit of a page, whatever its number. -/
theorem lastBit_place (page_n : ℤ) (ht : (takenBit page_n % 32).toNat < 8) :
    (lastBit page_n % 32).toNat = (takenBit page_n % 32).toNat + 1 ∧
      (lastBit page_n % 32).toNat < 8 := by
  simp only [takenBit, lastBit] at *
  omega

theorem takenBit_ne_lastBit (page_n page_n' : ℤ) :
    (takenBit page_n % 32).toNat ≠ (lastBit page_n' % 32).toNat := by
  simp only [takenBit, lastBit]
  omega

theorem pageFreeLoop_onlyCleared {fuel location : ℕ}
    (hf : pageFreeLoop base fuel m location = some m') : OnlyCleared m m' := by
  induction fuel generalizing m location with
  | zero => cases hf
  | succ fuel ih =>
    rw [pageFreeLoop] at hf
    split_ifs at hf
    · cases hf
      exact fun x j hj => hj
    · cases hf
      exact clearMark_onlyCleared.trans clearMark_onlyCleared
    · exact clearMark_onlyCleared.trans (ih hf)

/-- A page that is marked taken is not marked any more when the loop ends. -/
theorem pageFreeLoop_clears {fuel location : ℕ}
    (ht : isTaken m base (toInt location) = true)
    (hf : pageFreeLoop base fuel m location = some m') :
    isTaken m' base (toInt location) = false := by
  have hcleared : OnlyCleared (clearTaken m base (toInt location)) m' := by
    cases fuel with
    | zero => cases hf
    | succ fuel =>
      rw [pageFreeLoop, ht] at hf
      simp only [Bool.not_true, Bool.false_eq_true, if_false] at hf
      split_ifs at hf
      · cases hf
        exact clearMark_onlyCleared
      · exact pageFreeLoop_onlyCleared hf
  rw [← Bool.not_eq_true]
  intro hstill
  have hbefore := testMark_clearMark ht
  rw [isTaken, testMark_eq] at hstill
  have hyes : testMark (clearTaken m base (toInt location)) base (toInt location)
      (takenBit (toInt location)) = true := by
    rw [testMark_eq]
    exact hcleared _ _ hstill
  rw [clearTaken, hbefore] at hyes
  cases hyes

/-- For every memory and address the call ends without a change exactly when the address is
harmless. -/
theorem pageFree_unchanged_iff (h : HeapSymbols) (m : Mem) (p : ℕ) :
    (∃ fuel, pageFree h fuel m p = some m) ↔ Harmless h m p := by
  unfold pageFree Harmless
  change (∃ fuel, (if p < h.start ∨ h.stop < p then some m else pageFreeLoop h.start fuel
    (if isTaken m h.start (toInt (wrap64 (pageNumber h p - 1))) then
      setLast m h.start (toInt (wrap64 (pageNumber h p - 1))) else m)
    (pageNumber h p)) = some m) ↔ _
  generalize toInt (wrap64 ((pageNumber h p : ℤ) - 1)) = prev
  generalize pageNumber h p = location
  by_cases hout : p < h.start ∨ h.stop < p
  · simp only [if_pos hout, exists_const, true_iff]
    exact or_assoc.1 (Or.inl hout)
  simp only [if_neg hout]
  rw [← or_assoc, or_iff_right hout]
  generalize hm₁ : (if isTaken m h.start prev then setLast m h.start prev else m) = m₁
  -- the last bit of the page before does not touch the taken bit the loop looks at
  have hsame : isTaken m₁ h.start (toInt location) = isTaken m h.start (toInt location) := by
    rw [← hm₁]
    split_ifs
    · exact testMark_setMark_ne (takenBit_ne_lastBit _ _) prev
    · rfl
  have hself : m₁ = m ↔ (isTaken m h.start prev = true → isLast m h.start prev = true) := by
    rw [← hm₁]
    split_ifs with hprev
    · rw [forall_prop_of_true hprev]
      exact setMark_self_iff (lastBit_place prev (testMark_lt hprev)).2
    · exact iff_of_true rfl fun h => absurd h hprev
  constructor
  · rintro ⟨fuel, hf⟩
    have hfree : isTaken m h.start (toInt location) = false := by
      rw [← Bool.not_eq_true]
      intro ht
      have hcleared := pageFreeLoop_clears (hsame.trans ht) hf
      rw [ht] at hcleared
      cases hcleared
    cases fuel with
    | zero => cases hf
    | succ fuel =>
      rw [pageFreeLoop, hsame, hfree, if_pos (by decide)] at hf
      exact ⟨hfree, hself.1 (Option.some.inj hf)⟩
  · rintro ⟨hfree, hlast⟩
    refine ⟨1, ?_⟩
    rw [pageFreeLoop, hsame, hfree, if_pos (by decide)]
    exact congrArg some (hself.2 hlast)

/-- In a run, an address behind the bookkeeping bytes is harmless exactly when its page number is
no bookkeeping page and no page of a live block. -/
theorem Invariant.harmless_iff (hf : h.Fits) {s : State} (hs : Invariant h s) {p : ℕ}
    (hlo : h.start + bookkeepingBytes h ≤ p) (hhi : p ≤ h.stop)
    (hl : pageNumber h p < totalPages h) :
    Harmless h s.mem p ↔
      pagesForBookkeeping h ≤ pageNumber h p ∧ ∀ b ∈ s.live, ¬ b.Covers (pageNumber h p) := by
  have hpages := hf.pages
  have hbook := hf.bookkeeping.1
  have hin : ¬ p < h.start ∧ ¬ h.stop < p := by omega
  unfold Harmless
  generalize pageNumber h p = location at *
  have htaken := hs.taken_iff location hl
  rw [or_iff_right hin.1, or_iff_right hin.2, toInt_of_lt (by omega), ← Bool.not_eq_true, htaken]
  simp only [not_or, not_lt, not_exists, not_and]
  refine and_iff_left_of_imp fun ⟨habove, hfree⟩ => ?_
  have hprev : toInt (wrap64 ((location : ℤ) - 1)) = ((location - 1 : ℕ) : ℤ) := by
    rw [← Nat.cast_pred (by omega), wrap64_of_lt (by omega), toInt_of_lt (by omega)]
  rw [hprev, hs.taken_iff _ (by omega), hs.last_iff _ (by omega)]
  rintro (hbelow | ⟨b, hb, hcov⟩)
  · exact Or.inl (by omega)
  · -- a block that ends in front of a free page
    have hnot := hfree b hb
    refine Or.inr ⟨b, hb, ?_⟩
    simp only [Block.Covers, Block.finalPage] at *
    omega

/-- Freeing the first address behind the bookkeeping bytes frees the bookkeeping page. -/
theorem pageFree_bookkeeping : ∃ fuel m',
    pageFree tinyHeap fuel tinyStart (tinyHeap.start + bookkeepingBytes tinyHeap) = some m' ∧
      isTaken tinyStart tinyHeap.start (0 : ℕ) = true ∧
      isTaken m' tinyHeap.start (0 : ℕ) = false := by
  have hcall : (pageFree tinyHeap 1 tinyStart (tinyHeap.start + bookkeepingBytes tinyHeap)).map
      (fun m' => isTaken m' tinyHeap.start (0 : ℕ)) = some false := by decide +kernel
  obtain ⟨m', hm', hfree⟩ := Option.map_eq_some_iff.1 hcall
  exact ⟨1, m', hm', by decide +kernel, hfree⟩

end PageAllocator
