import DucreuOS.UserAccess

/-! # What a copy transfers

A copy goes page by page from an unaligned address through frames that the page table scatters.
Byte by byte it is one transfer between the buffer and the translations of the range. -/
namespace UserAccess

open ByteMemory PageTable

variable (tables : ℕ → Word) (ptable os_vaddr user_vaddr : Word)

/-- Byte `i` of the process's range is mapped. -/
def Translates (i : ℕ) : Prop :=
  mmuTranslate tables ptable (user_vaddr + BitVec.ofNat 64 i) ≠ -1#64

/-- Where byte `i` of the process's range lies in memory. -/
def userByte (i : ℕ) : ℕ :=
  (mmuTranslate tables ptable (user_vaddr + BitVec.ofNat 64 i)).toNat

/-- The pages of the range that are mapped have frames of their own, and none of their bytes is in
the kernel's buffer. Neither range wraps. -/
structure DisjointFrames (size : ℕ) : Prop where
  user_range : user_vaddr.toNat + size ≤ 2 ^ 64
  os_range : os_vaddr.toNat + size ≤ 2 ^ 64
  frames (i j : ℕ) : i < size → j < size → Translates tables ptable user_vaddr i →
    Translates tables ptable user_vaddr j →
    (user_vaddr.toNat + i) / PAGE_SIZE ≠ (user_vaddr.toNat + j) / PAGE_SIZE →
      userByte tables ptable user_vaddr i / PAGE_SIZE
        ≠ userByte tables ptable user_vaddr j / PAGE_SIZE
  buffer (i j : ℕ) : i < size → j < size → Translates tables ptable user_vaddr i →
    userByte tables ptable user_vaddr i ≠ os_vaddr.toNat + j

variable {tables ptable os_vaddr user_vaddr} {n size fuel : ℕ} {m : Mem}

/-! ## Bytes of a page -/

theorem translate_offset {v : Word} {i : ℕ} (hi : v.toNat % PAGE_SIZE + i < PAGE_SIZE)
    (hv : mmuTranslate tables ptable v ≠ -1#64) :
    (mmuTranslate tables ptable (v + BitVec.ofNat 64 i)).toNat
      = (mmuTranslate tables ptable v).toNat + i := by
  obtain ⟨⟨level, entry⟩, hl⟩ :=
    Option.ne_none_iff_exists'.mp fun h => hv ((translate_invalid tables ptable v).mpr h)
  have hlevel := leafFrom_level tables hl
  obtain ⟨base, hle, heq⟩ := leafAddr_split hlevel entry
  rw [translate_leaf tables ptable ((leafOf_offset tables ptable hi).trans hl),
    translate_leaf tables ptable hl, leafAddr_offset hlevel hi, BitVec.toNat_add,
    BitVec.toNat_ofNat, heq]
  have hmod := Nat.mod_lt v.toNat (Nat.two_pow_pos (12 + 9 * level))
  simp only [PAGE_SIZE] at hi
  omega

theorem translates_zero :
    Translates tables ptable user_vaddr 0 ↔ mmuTranslate tables ptable user_vaddr ≠ -1#64 := by
  rw [Translates, BitVec.add_zero]

theorem translates_add (i : ℕ) :
    Translates tables ptable (user_vaddr + BitVec.ofNat 64 n) i ↔
      Translates tables ptable user_vaddr (n + i) := by
  rw [Translates, add_offset, Translates]

theorem userByte_add (i : ℕ) :
    userByte tables ptable (user_vaddr + BitVec.ofNat 64 n) i
      = userByte tables ptable user_vaddr (n + i) := by
  rw [userByte, add_offset, userByte]

/-- Different bytes of the range lie at different places. -/
theorem DisjointFrames.injective (h : DisjointFrames tables ptable os_vaddr user_vaddr size)
    {i j : ℕ} (hi : i < size) (hj : j < size) (hti : Translates tables ptable user_vaddr i)
    (htj : Translates tables ptable user_vaddr j) (hlt : i < j) :
    userByte tables ptable user_vaddr i ≠ userByte tables ptable user_vaddr j := by
  intro he
  have hpage := h.user_range
  by_cases hsame : (user_vaddr.toNat + i) / PAGE_SIZE = (user_vaddr.toNat + j) / PAGE_SIZE
  · have hv : (user_vaddr + BitVec.ofNat 64 i).toNat = user_vaddr.toNat + i := by
      rw [BitVec.toNat_add, BitVec.toNat_ofNat]
      omega
    have hoff : (user_vaddr + BitVec.ofNat 64 i).toNat % PAGE_SIZE + (j - i) < PAGE_SIZE := by
      rw [hv]
      simp only [PAGE_SIZE] at hsame ⊢
      omega
    have hbyte := translate_offset hoff hti
    rw [add_offset, Nat.add_sub_cancel' hlt.le] at hbyte
    simp only [userByte] at he
    omega
  · exact h.frames i j hi hj hti htj hsame (congrArg (· / PAGE_SIZE) he)

/-! ## The loop -/

section Loop

variable {move : Mem → Word → Word → ℕ → Mem}

theorem word_offset {v : Word} (hv : v.toNat + size ≤ 2 ^ 64) {i : ℕ} (hi : i < size) :
    (v + BitVec.ofNat 64 i).toNat = v.toNat + i := by
  rw [BitVec.toNat_add, BitVec.toNat_ofNat]
  omega

/-- The range behind its first `n` bytes. -/
theorem DisjointFrames.rest (h : DisjointFrames tables ptable os_vaddr user_vaddr size)
    (hn : n ≤ size) : DisjointFrames tables ptable (os_vaddr + BitVec.ofNat 64 n)
      (user_vaddr + BitVec.ofNat 64 n) (size - n) := by
  have huser := h.user_range
  have hos := h.os_range
  constructor
  · rw [BitVec.toNat_add, BitVec.toNat_ofNat]
    omega
  · rw [BitVec.toNat_add, BitVec.toNat_ofNat]
    omega
  · intro i j hi hj hti htj hne
    rw [userByte_add, userByte_add]
    rw [translates_add] at hti htj
    rw [word_offset huser (by omega), Nat.add_assoc, Nat.add_assoc] at hne
    exact h.frames (n + i) (n + j) (by omega) (by omega) hti htj hne
  · intro i j hi hj hti
    rw [userByte_add, word_offset hos (by omega), Nat.add_assoc]
    rw [translates_add] at hti
    exact h.buffer (n + i) (n + j) (by omega) (by omega) hti

/-- The first round copies the bytes of one page, and the next goes on behind them. -/
theorem copyLoop_round (hpos : size ≠ 0) (ht : Translates tables ptable user_vaddr 0) : ∃ n, 0 < n ∧
    n ≤ size ∧ (∀ i < n, userByte tables ptable user_vaddr i
      = (mmuTranslate tables ptable user_vaddr).toNat + i) ∧
    ∃ accesses, copyLoop tables ptable move (fuel + 1) os_vaddr user_vaddr size m
      = { copyLoop tables ptable move fuel (os_vaddr + BitVec.ofNat 64 n)
            (user_vaddr + BitVec.ofNat 64 n) (size - n)
            (move m (mmuTranslate tables ptable user_vaddr) os_vaddr n) with
          accesses := accesses } := by
  have hmod := Nat.mod_lt user_vaddr.toNat (show 0 < PAGE_SIZE by decide)
  have hv := translates_zero.mp ht
  refine ⟨min (PAGE_SIZE - user_vaddr.toNat % PAGE_SIZE) size, by omega, by omega,
    fun i hi => translate_offset (by omega) hv, ?_⟩
  rw [copyLoop, if_neg hpos]
  simp only [if_neg hv]
  exact ⟨_, rfl⟩

theorem copyLoop_zero (hf : size ≤ fuel)
    (ht : ∀ i < size, Translates tables ptable user_vaddr i) :
    (copyLoop tables ptable move fuel os_vaddr user_vaddr size m).ret = 0 := by
  induction fuel generalizing size os_vaddr user_vaddr m with
  | zero => rfl
  | succ fuel ih =>
    by_cases h0 : size = 0
    · rw [copyLoop, if_pos h0]
    obtain ⟨n, hpos, hle, -, accesses, hround⟩ := copyLoop_round h0 (ht 0 (by omega))
    rw [hround]
    refine ih (by omega) fun i hi => ?_
    rw [translates_add]
    exact ht (n + i) (by omega)

/-- A copy fails exactly if some byte of its range is not mapped. -/
theorem copyLoop_ret (hf : size ≤ fuel) :
    (copyLoop tables ptable move fuel os_vaddr user_vaddr size m).ret = 1 ↔
      ∃ i < size, ¬Translates tables ptable user_vaddr i := by
  constructor
  · intro hret
    by_contra hno
    have hall : ∀ i < size, Translates tables ptable user_vaddr i := fun i hi => by
      by_contra hi'
      exact hno ⟨i, hi, hi'⟩
    rw [copyLoop_zero hf hall] at hret
    cases hret
  · rintro ⟨i, hi, hno⟩
    by_contra hret
    exact hno ((@copyLoop_spec tables ptable move 0 _ _ hf os_vaddr user_vaddr m).2 hret i hi)

/-- Copying out changes nothing but the bytes of the range, and of the bytes at one place the last
stays. -/
theorem copyLoop_last (hf : size ≤ fuel) (hos : os_vaddr.toNat + size ≤ 2 ^ 64)
    (hbuffer : ∀ i < size, ∀ j < size, userByte tables ptable user_vaddr i ≠ os_vaddr.toNat + j)
    (ht : ∀ i < size, Translates tables ptable user_vaddr i) :
    let r := copyLoop tables ptable (fun mem user os n => memcpy mem user os n) fuel os_vaddr
      user_vaddr size m
    (∀ i < size, (∀ j, i < j → j < size →
        userByte tables ptable user_vaddr j ≠ userByte tables ptable user_vaddr i) →
      r.mem (userByte tables ptable user_vaddr i) = m (os_vaddr.toNat + i)) ∧
      ∀ x, (∀ i < size, x ≠ userByte tables ptable user_vaddr i) → r.mem x = m x := by
  induction fuel generalizing size os_vaddr user_vaddr m with
  | zero => exact ⟨fun i hi => absurd hi (by omega), fun x _ => rfl⟩
  | succ fuel ih =>
    by_cases h0 : size = 0
    · rw [copyLoop, if_pos h0]
      exact ⟨fun i hi => absurd hi (by omega), fun x _ => rfl⟩
    obtain ⟨n, hpos, hle, hfirst, accesses, hround⟩ := copyLoop_round h0 (ht 0 (by omega))
    rw [hround]
    have hnext (i : ℕ) (hi : n + i < size) :
        (os_vaddr + BitVec.ofNat 64 n).toNat + i = os_vaddr.toNat + (n + i) := by
      rw [word_offset hos (by omega), Nat.add_assoc]
    have hos' : (os_vaddr + BitVec.ofNat 64 n).toNat + (size - n) ≤ 2 ^ 64 := by
      rw [BitVec.toNat_add, BitVec.toNat_ofNat]
      omega
    have hbuffer' : ∀ i < size - n, ∀ j < size - n,
        userByte tables ptable (user_vaddr + BitVec.ofNat 64 n) i
          ≠ (os_vaddr + BitVec.ofNat 64 n).toNat + j := by
      intro i hi j hj
      rw [userByte_add, hnext j (by omega)]
      exact hbuffer (n + i) (by omega) (n + j) (by omega)
    obtain ⟨hbytes, hothers⟩ := ih (m := memcpy m (mmuTranslate tables ptable user_vaddr)
      os_vaddr n) (by omega) hos' hbuffer' fun i hi => by
        rw [translates_add]
        exact ht (n + i) (by omega)
    simp only [userByte_add] at hbytes hothers
    have hin (i : ℕ) (hi : i < n) : memcpy m (mmuTranslate tables ptable user_vaddr) os_vaddr n
        (userByte tables ptable user_vaddr i) = m (os_vaddr.toNat + i) := by
      rw [hfirst i hi, memcpy, blit_inside (by omega) (by omega), Nat.add_sub_cancel_left]
      rfl
    have hout (x : ℕ) (hx : ∀ i < n, x ≠ userByte tables ptable user_vaddr i) :
        memcpy m (mmuTranslate tables ptable user_vaddr) os_vaddr n x = m x := by
      apply blit_outside
      by_contra hc
      have hne := hx (x - (mmuTranslate tables ptable user_vaddr).toNat) (by omega)
      rw [hfirst _ (by omega)] at hne
      omega
    constructor
    · intro i hi hlast
      by_cases hin' : i < n
      · rw [hothers _ fun j hj => (hlast (n + j) (by omega) (by omega)).symm]
        exact hin i hin'
      · have hbyte := hbytes (i - n) (by omega) fun j hj hj' => by
          rw [Nat.add_sub_cancel' (by omega)]
          exact hlast (n + j) (by omega) (by omega)
        rw [Nat.add_sub_cancel' (by omega), hnext _ (by omega),
          Nat.add_sub_cancel' (by omega)] at hbyte
        rw [hbyte]
        exact hout _ fun j hj => (hbuffer j (by omega) i hi).symm
    · intro x hx
      rw [hothers x fun i hi => hx (n + i) (by omega)]
      exact hout x fun i hi => hx i (by omega)

/-- Copying out sets the bytes of the range to the buffer's and no others. -/
theorem copyLoop_out (hf : size ≤ fuel)
    (h : DisjointFrames tables ptable os_vaddr user_vaddr size)
    (ht : ∀ i < size, Translates tables ptable user_vaddr i) :
    let r := copyLoop tables ptable (fun mem user os n => memcpy mem user os n) fuel os_vaddr
      user_vaddr size m
    (∀ i < size, r.mem (userByte tables ptable user_vaddr i) = m (os_vaddr.toNat + i)) ∧
      ∀ x, (∀ i < size, x ≠ userByte tables ptable user_vaddr i) → r.mem x = m x := by
  obtain ⟨hbytes, hothers⟩ := copyLoop_last (m := m) hf h.os_range
    (fun i hi j hj => h.buffer i j hi hj (ht i hi)) ht
  refine ⟨fun i hi => hbytes i hi fun j hij hj => ?_, hothers⟩
  exact (h.injective hi hj (ht i hi) (ht j hj) hij).symm

/-- Copying in fills the buffer with the bytes of the range and changes no others. -/
theorem copyLoop_in (hf : size ≤ fuel)
    (h : DisjointFrames tables ptable os_vaddr user_vaddr size)
    (ht : ∀ i < size, Translates tables ptable user_vaddr i) :
    let r := copyLoop tables ptable (fun mem user os n => memcpy mem os user n) fuel os_vaddr
      user_vaddr size m
    (∀ i < size, r.mem (os_vaddr.toNat + i) = m (userByte tables ptable user_vaddr i)) ∧
      ∀ x, (x < os_vaddr.toNat ∨ os_vaddr.toNat + size ≤ x) → r.mem x = m x := by
  induction fuel generalizing size os_vaddr user_vaddr m with
  | zero => exact ⟨fun i hi => absurd hi (by omega), fun x _ => rfl⟩
  | succ fuel ih =>
    by_cases h0 : size = 0
    · rw [copyLoop, if_pos h0]
      exact ⟨fun i hi => absurd hi (by omega), fun x _ => rfl⟩
    obtain ⟨n, hpos, hle, hfirst, accesses, hround⟩ := copyLoop_round h0 (ht 0 (by omega))
    rw [hround]
    obtain ⟨hbytes, hothers⟩ := ih (m := memcpy m os_vaddr
      (mmuTranslate tables ptable user_vaddr) n) (by omega) (h.rest hle) fun i hi => by
        rw [translates_add]
        exact ht (n + i) (by omega)
    simp only [userByte_add] at hbytes
    have hos := h.os_range
    have hnext (hlt : n < size) : (os_vaddr + BitVec.ofNat 64 n).toNat = os_vaddr.toNat + n :=
      word_offset hos hlt
    have hrest (x : ℕ) (hx : x < os_vaddr.toNat + n ∨ os_vaddr.toNat + size ≤ x) :
        (copyLoop tables ptable (fun mem user os n => memcpy mem os user n) fuel
          (os_vaddr + BitVec.ofNat 64 n) (user_vaddr + BitVec.ofNat 64 n) (size - n)
          (memcpy m os_vaddr (mmuTranslate tables ptable user_vaddr) n)).mem x
          = memcpy m os_vaddr (mmuTranslate tables ptable user_vaddr) n x := by
      apply hothers
      by_cases hlt : n < size
      · rw [hnext hlt]
        omega
      · omega
    constructor
    · intro i hi
      by_cases hin' : i < n
      · rw [hrest _ (by omega), memcpy, blit_inside (by omega) (by omega),
          Nat.add_sub_cancel_left, hfirst i hin']
        rfl
      · have hbyte := hbytes (i - n) (by omega)
        rw [Nat.add_sub_cancel' (by omega), hnext (by omega), Nat.add_assoc,
          Nat.add_sub_cancel' (by omega)] at hbyte
        rw [hbyte, memcpy]
        apply blit_outside
        by_contra hc
        have hne := h.buffer i (userByte tables ptable user_vaddr i - os_vaddr.toNat) hi (by omega)
          (ht i hi)
        omega
    · intro x hx
      rw [hrest x (by omega), memcpy, blit_outside (by omega)]

end Loop

/-! ## The two functions -/

/-- With frames of their own under the mapped pages, a copy of a range that is mapped everywhere
transfers exactly its bytes, out and back changes nothing more, and a copy fails exactly on a range
that is not. -/
theorem copies_bytes (tables : ℕ → Word) (ptable : Word) (mem : Mem) (os_vaddr user_vaddr : Word)
    (size : BitVec 32) (h : DisjointFrames tables ptable os_vaddr user_vaddr size.toNat) :
    let out := copyToUser tables ptable mem os_vaddr user_vaddr size
    let into := copyToOs tables ptable mem os_vaddr user_vaddr size
    ((∀ i < size.toNat, Translates tables ptable user_vaddr i) →
      (out.ret = 0 ∧
        (∀ i < size.toNat,
          out.mem (userByte tables ptable user_vaddr i) = mem (os_vaddr.toNat + i)) ∧
        ∀ x, (∀ i < size.toNat, x ≠ userByte tables ptable user_vaddr i) → out.mem x = mem x) ∧
      (into.ret = 0 ∧
        (∀ i < size.toNat,
          into.mem (os_vaddr.toNat + i) = mem (userByte tables ptable user_vaddr i)) ∧
        ∀ x, (x < os_vaddr.toNat ∨ os_vaddr.toNat + size.toNat ≤ x) → into.mem x = mem x) ∧
      (copyToOs tables ptable out.mem os_vaddr user_vaddr size).mem = out.mem) ∧
    (out.ret = 1 ↔ ∃ i < size.toNat, ¬Translates tables ptable user_vaddr i) ∧
    (into.ret = 1 ↔ ∃ i < size.toNat, ¬Translates tables ptable user_vaddr i) := by
  intro out into
  refine ⟨fun ht => ?_, copyLoop_ret (le_refl _), copyLoop_ret (le_refl _)⟩
  have hout : _ ∧ ∀ x, _ → out.mem x = mem x := copyLoop_out (le_refl _) h ht
  have hinto : _ ∧ ∀ x, _ → into.mem x = mem x := copyLoop_in (le_refl _) h ht
  refine ⟨⟨copyLoop_zero (le_refl _) ht, hout⟩, ⟨copyLoop_zero (le_refl _) ht, hinto⟩, ?_⟩
  obtain ⟨hbytes, hothers⟩ := copyLoop_in (m := out.mem) (le_refl _) h ht
  funext x
  by_cases hx : os_vaddr.toNat ≤ x ∧ x < os_vaddr.toNat + size.toNat
  · -- a byte of the buffer comes back from where it was copied to
    obtain ⟨i, rfl⟩ := Nat.exists_eq_add_of_le hx.1
    have hi : i < size.toNat := by omega
    have hkept : out.mem (os_vaddr.toNat + i) = mem (os_vaddr.toNat + i) :=
      hout.2 _ fun j hj => (h.buffer j i hj hi (ht j hj)).symm
    exact (hbytes i hi).trans ((hout.1 i hi).trans hkept.symm)
  · exact hothers x (by omega)

/-- Two neighbouring pages on frames in the other order. -/
def scatteredTable : ℕ → Word :=
  (mmuMap (mmuMap ⟨fun _ => 0, [0x80002000#64, 0x80003000#64]⟩ 0x80001000#64 0x120000000#64
    0x80006000#64 (PTEB_READ ||| PTEB_WRITE)).2 0x80001000#64 0x120001000#64 0x80004000#64
    (PTEB_READ ||| PTEB_WRITE)).2.mem

theorem scattered_translate : ∀ i < 8, mmuTranslate scatteredTable 0x80001000#64
    (0x120000ffc#64 + BitVec.ofNat 64 i)
      = BitVec.ofNat 64 (if i < 4 then 0x80006ffc + i else 0x80003ffc + i) := by
  decide +kernel

/-- Eight bytes across the two pages. -/
theorem copies_bytes_two_pages : ∃ out,
    copyToUser scatteredTable 0x80001000#64 (fun x => BitVec.ofNat 8 x) 0x80010000#64
      0x120000ffc#64 8 = out ∧
    out.ret = 0 ∧ (copyToOs scatteredTable 0x80001000#64 out.mem 0x80010000#64 0x120000ffc#64
      8).mem = out.mem := by
  have hbyte (i : ℕ) (hi : i < 8) : userByte scatteredTable 0x80001000#64 0x120000ffc#64 i
      = if i < 4 then 0x80006ffc + i else 0x80003ffc + i := by
    rw [userByte, scattered_translate i hi, BitVec.toNat_ofNat]
    split_ifs <;> omega
  have hvalid (i : ℕ) (hi : i < 8) : Translates scatteredTable 0x80001000#64 0x120000ffc#64 i := by
    intro he
    have htop := congrArg BitVec.toNat he
    rw [← userByte, hbyte i hi] at htop
    change _ = 2 ^ 64 - 1 at htop
    split_ifs at htop <;> omega
  have hframes : DisjointFrames scatteredTable 0x80001000#64 0x80010000#64 0x120000ffc#64
      (8 : BitVec 32).toNat := by
    refine ⟨by decide, by decide, fun i j hi hj _ _ hne => ?_, fun i j hi hj _ => ?_⟩
    · rw [hbyte i hi, hbyte j hj]
      change (0x120000ffc + i) / 4096 ≠ (0x120000ffc + j) / 4096 at hne
      change i < 8 at hi
      change j < 8 at hj
      simp only [PAGE_SIZE]
      split_ifs <;> omega
    · rw [hbyte i hi]
      change _ ≠ 0x80010000 + j
      change j < 8 at hj
      change i < 8 at hi
      split_ifs <;> omega
  have h := (copies_bytes scatteredTable 0x80001000#64 (fun x => BitVec.ofNat 8 x) 0x80010000#64
    0x120000ffc#64 8 hframes).1 hvalid
  exact ⟨_, rfl, h.1.1, h.2.2⟩

end UserAccess
