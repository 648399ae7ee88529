import DucreuOS.Library.ByteMemory
import DucreuOS.PageTable

/-! # Copies between the kernel and a process

`copy_to_user` and `copy_to_os` go through the process's page table page by page. The kernel has
the pages of processes identity mapped. Table pages are not among the bytes that are copied. -/
namespace UserAccess

open ByteMemory PageTable

/-- One `memcpy` of a copy: the process's address, its translation and the number of bytes. -/
structure Access where
  vaddr : Word
  paddr : Word
  size : ℕ

structure Copied where
  ret : ℕ
  accesses : List Access
  mem : Mem

/-- Of regions that do not overlap. -/
def memcpy (mem : Mem) (dst src : Word) (size : ℕ) : Mem :=
  blit mem dst.toNat size (window mem src.toNat)

/-- The loop both functions have; `move` gets the physical and the kernel's address. It makes at
most `fuel` rounds. -/
def copyLoop (tables : ℕ → Word) (ptable : Word) (move : Mem → Word → Word → ℕ → Mem) :
    (fuel : ℕ) → (os_vaddr user_vaddr : Word) → (size : ℕ) → Mem → Copied
  | 0, _, _, _, mem => ⟨0, [], mem⟩
  | fuel + 1, os_vaddr, user_vaddr, size, mem =>
    if size = 0 then ⟨0, [], mem⟩
    else
      let user_paddr := mmuTranslate tables ptable user_vaddr
      if user_paddr = -1#64 then ⟨1, [], mem⟩
      else
        let copy_size := min (PAGE_SIZE - user_vaddr.toNat % PAGE_SIZE) size
        let r := copyLoop tables ptable move fuel (os_vaddr + BitVec.ofNat 64 copy_size)
          (user_vaddr + BitVec.ofNat 64 copy_size) (size - copy_size)
          (move mem user_paddr os_vaddr copy_size)
        { r with accesses := ⟨user_vaddr, user_paddr, copy_size⟩ :: r.accesses }

variable (tables : ℕ → Word) (ptable : Word)

def copyToUser (mem : Mem) (os_vaddr user_vaddr : Word) (size : BitVec 32) : Copied :=
  copyLoop tables ptable (fun mem user os n => memcpy mem user os n) size.toNat
    os_vaddr user_vaddr size.toNat mem

def copyToOs (mem : Mem) (os_vaddr user_vaddr : Word) (size : BitVec 32) : Copied :=
  copyLoop tables ptable (fun mem user os n => memcpy mem os user n) size.toNat
    os_vaddr user_vaddr size.toNat mem

/-! ## Leaves of a table -/

theorem root_level : 2 < 3 := by decide

theorem lower_level {i : ℕ} (h : i + 1 < 3) : i < 3 := Nat.lt_of_succ_lt h

/-- The leaf the walk of `mmu_translate` ends at, with its level. -/
def leafFrom (vaddr : Word) : (level : ℕ) → level < 3 → Word → Option (ℕ × Word)
  | 0, _, pt =>
    let entry := tables (entryAddr pt (vpn vaddr 0))
    if entry &&& PTEB_VALID = 0#64 then none
    else if entry &&& 0xe#64 ≠ 0#64 then some (0, entry) else none
  | i + 1, h, pt =>
    let entry := tables (entryAddr pt (vpn vaddr ⟨i + 1, h⟩))
    if entry &&& PTEB_VALID = 0#64 then none
    else if entry &&& 0xe#64 ≠ 0#64 then some (i + 1, entry)
    else leafFrom vaddr i (lower_level h) (lower entry)

def leafOf (vaddr : Word) : Option (ℕ × Word) := leafFrom tables vaddr 2 root_level ptable

/-- The table maps an address to this physical one, with these permission bits set. -/
def Maps (bits vaddr paddr : Word) : Prop :=
  ∃ level entry, leafOf tables ptable vaddr = some (level, entry) ∧ entry &&& bits = bits ∧
    leafAddr level entry vaddr = paddr

def Permits (bits vaddr : Word) : Prop := ∃ paddr, Maps tables ptable bits vaddr paddr

theorem translateFrom_eq (vaddr : Word) (level : ℕ) (h : level < 3) (pt : Word) :
    translateFrom tables vaddr level h pt =
      match leafFrom tables vaddr level h pt with
      | some (l, entry) => leafAddr l entry vaddr
      | none => -1#64 := by
  induction level generalizing pt with
  | zero =>
    unfold translateFrom leafFrom
    simp only
    split_ifs <;> rfl
  | succ i ih =>
    unfold translateFrom leafFrom
    simp only
    split_ifs
    · rfl
    · rfl
    · exact ih _ _

theorem leafFrom_level {vaddr : Word} {level l : ℕ} {h : level < 3} {pt entry : Word}
    (hl : leafFrom tables vaddr level h pt = some (l, entry)) : l < 3 := by
  induction level generalizing pt with
  | zero =>
    unfold leafFrom at hl
    simp only at hl
    split_ifs at hl
    · cases hl
      exact h
  | succ i ih =>
    unfold leafFrom at hl
    simp only at hl
    split_ifs at hl
    · cases hl
      exact h
    · exact ih hl

theorem leafFrom_congr {v w : Word} (hvw : ∀ l, vpn v l = vpn w l) (level : ℕ) (h : level < 3)
    (pt : Word) : leafFrom tables v level h pt = leafFrom tables w level h pt := by
  induction level generalizing pt with
  | zero =>
    unfold leafFrom
    rw [hvw]
  | succ i ih =>
    unfold leafFrom
    simp only [hvw, ih]

/-- A word with its low bits clear, joined with the low bits of another. -/
theorem or_low {k : ℕ} {b : Word} (hb : ∀ i < k, b.getLsbD i = false) (v mask : Word)
    (hmask : mask.toNat = 2 ^ k - 1) : 2 ^ k ∣ b.toNat ∧
      (b ||| (v &&& mask)).toNat = b.toNat + v.toNat % 2 ^ k := by
  have hdvd : 2 ^ k ∣ b.toNat := by
    apply Nat.dvd_of_mod_eq_zero
    apply Nat.eq_of_testBit_eq
    intro i
    rw [Nat.testBit_mod_two_pow, Nat.zero_testBit]
    by_cases hi : i < k
    · rw [show b.toNat.testBit i = false from hb i hi, Bool.and_false]
    · rw [decide_eq_false hi, Bool.false_and]
  obtain ⟨q, hq⟩ := hdvd
  refine ⟨⟨q, hq⟩, ?_⟩
  rw [BitVec.toNat_or, BitVec.toNat_and, hmask, Nat.and_two_pow_sub_one_eq_mod, hq,
    Nat.two_pow_add_eq_or_of_lt (Nat.mod_lt _ (Nat.two_pow_pos k))]

/-- The part of a leaf's address that the leaf gives, and the part the address gives. -/
theorem leafAddr_split {level : ℕ} (h : level < 3) (entry : Word) :
    ∃ base, base + 2 ^ (12 + 9 * level) ≤ 2 ^ 56 ∧
      ∀ v, (leafAddr level entry v).toNat = base + v.toNat % 2 ^ (12 + 9 * level) := by
  have mask9 (i : ℕ) : (0x1FF#64).getLsbD i = decide (i < 9) := low_mask 9 i (by omega)
  have mask26 (i : ℕ) : (0x3FFFFFF#64).getLsbD i = decide (i < 26) := low_mask 26 i (by omega)
  have hsplit (b mask : Word) (hb : ∀ i, i < 12 + 9 * level ∨ 56 ≤ i → b.getLsbD i = false)
      (hmask : mask.toNat = 2 ^ (12 + 9 * level) - 1)
      (heq : ∀ v, leafAddr level entry v = b ||| (v &&& mask)) :
      ∃ base, base + 2 ^ (12 + 9 * level) ≤ 2 ^ 56 ∧
        ∀ v, (leafAddr level entry v).toNat = base + v.toNat % 2 ^ (12 + 9 * level) := by
    have hlow (i : ℕ) (hi : i < 12 + 9 * level) : b.getLsbD i = false := hb i (Or.inl hi)
    have hlt : b.toNat < 2 ^ 56 := by
      apply Nat.lt_pow_two_of_testBit
      exact fun i hi => hb i (Or.inr hi)
    obtain ⟨q, hq⟩ := (or_low hlow 0 mask hmask).1
    refine ⟨b.toNat, ?_, fun v => ?_⟩
    · have hle : 12 + 9 * level ≤ 56 := by omega
      have hpow : (2 : ℕ) ^ 56 = 2 ^ (12 + 9 * level) * 2 ^ (56 - (12 + 9 * level)) := by
        rw [← pow_add, Nat.add_sub_cancel' hle]
      rw [hq, hpow] at hlt ⊢
      have := Nat.lt_of_mul_lt_mul_left hlt
      rw [← Nat.mul_succ]
      exact Nat.mul_le_mul_left _ this
    · rw [heq]
      exact (or_low hlow v mask hmask).2
  match level, h with
  | 0, _ =>
    apply hsplit ((((entry >>> 28) &&& 0x3FFFFFF#64) <<< 30) |||
      (((entry >>> 19) &&& 0x1FF#64) <<< 21) ||| (((entry >>> 10) &&& 0x1FF#64) <<< 12)) 0xFFF#64
    · intro i hi
      simp only [BitVec.getLsbD_or, BitVec.getLsbD_shiftLeft, BitVec.getLsbD_and, mask9, mask26]
      grind
    · rfl
    · exact fun v => rfl
  | 1, _ =>
    apply hsplit ((((entry >>> 28) &&& 0x3FFFFFF#64) <<< 30) |||
      (((entry >>> 19) &&& 0x1FF#64) <<< 21)) 0x1FFFFF#64
    · intro i hi
      simp only [BitVec.getLsbD_or, BitVec.getLsbD_shiftLeft, BitVec.getLsbD_and, mask9, mask26]
      grind
    · rfl
    · exact fun v => rfl
  | 2, _ =>
    apply hsplit (((entry >>> 28) &&& 0x3FFFFFF#64) <<< 30) 0x3FFFFFFF#64
    · intro i hi
      simp only [BitVec.getLsbD_shiftLeft, BitVec.getLsbD_and, mask26]
      grind
    · rfl
    · exact fun v => rfl

/-- `mmu_translate` says invalid exactly where there is no leaf. -/
theorem translate_invalid (vaddr : Word) :
    mmuTranslate tables ptable vaddr = -1#64 ↔ leafOf tables ptable vaddr = none := by
  unfold mmuTranslate leafOf
  rw [translateFrom_eq]
  cases hl : leafFrom tables vaddr 2 (by omega) ptable with
  | none => simp
  | some leaf =>
    obtain ⟨l, entry⟩ := leaf
    obtain ⟨base, hle, heq⟩ := leafAddr_split (leafFrom_level tables hl) entry
    have hmod := Nat.mod_lt vaddr.toNat (Nat.two_pow_pos (12 + 9 * l))
    have hne : leafAddr l entry vaddr ≠ -1#64 := by
      intro h
      have htop : (-1#64).toNat = 2 ^ 64 - 1 := rfl
      have hv := heq vaddr
      rw [h, htop] at hv
      omega
    simpa using hne

theorem translate_leaf {vaddr entry : Word} {level : ℕ}
    (hl : leafOf tables ptable vaddr = some (level, entry)) :
    mmuTranslate tables ptable vaddr = leafAddr level entry vaddr := by
  unfold mmuTranslate
  unfold leafOf at hl
  rw [translateFrom_eq, hl]

/-! ## Within a page -/

/-- The bytes of a page that follow an address have its indexes. -/
theorem vpn_offset {v : Word} {i : ℕ} (hi : v.toNat % PAGE_SIZE + i < PAGE_SIZE) :
    (v + BitVec.ofNat 64 i).toNat = v.toNat + i ∧ ∀ l, vpn (v + BitVec.ofNat 64 i) l = vpn v l := by
  have hv := v.isLt
  simp only [PAGE_SIZE] at hi
  have hadd : (v + BitVec.ofNat 64 i).toNat = v.toNat + i := by
    rw [BitVec.toNat_add, BitVec.toNat_ofNat]
    omega
  refine ⟨hadd, fun l => Fin.ext ?_⟩
  rw [vpn_val, vpn_val, hadd]
  fin_cases l <;> norm_num <;> omega

theorem leafOf_offset {v : Word} {i : ℕ} (hi : v.toNat % PAGE_SIZE + i < PAGE_SIZE) :
    leafOf tables ptable (v + BitVec.ofNat 64 i) = leafOf tables ptable v :=
  leafFrom_congr tables (vpn_offset hi).2 2 (by omega) ptable

theorem permits_offset {bits v : Word} {i : ℕ} (hi : v.toNat % PAGE_SIZE + i < PAGE_SIZE) :
    Permits tables ptable bits (v + BitVec.ofNat 64 i) ↔ Permits tables ptable bits v := by
  unfold Permits Maps
  rw [leafOf_offset tables ptable hi]
  constructor
  · rintro ⟨-, l, entry, hl, hb, -⟩
    exact ⟨_, l, entry, hl, hb, rfl⟩
  · rintro ⟨-, l, entry, hl, hb, -⟩
    exact ⟨_, l, entry, hl, hb, rfl⟩

/-- The translation of a page is contiguous. -/
theorem leafAddr_offset {v entry : Word} {level i : ℕ} (h : level < 3)
    (hi : v.toNat % PAGE_SIZE + i < PAGE_SIZE) :
    leafAddr level entry (v + BitVec.ofNat 64 i) = leafAddr level entry v + BitVec.ofNat 64 i := by
  obtain ⟨base, hle, heq⟩ := leafAddr_split h entry
  have hdvd : PAGE_SIZE ∣ 2 ^ (12 + 9 * level) := ⟨2 ^ (9 * level), by rw [pow_add]; rfl⟩
  have hpage : v.toNat % 2 ^ (12 + 9 * level) + i < 2 ^ (12 + 9 * level) := by
    obtain ⟨c, hc⟩ := hdvd
    have hmod : v.toNat % 2 ^ (12 + 9 * level) % PAGE_SIZE = v.toNat % PAGE_SIZE :=
      Nat.mod_mod_of_dvd _ ⟨c, hc⟩
    have hlt := Nat.mod_lt v.toNat (Nat.two_pow_pos (12 + 9 * level))
    rw [hc] at hlt hmod ⊢
    have hq := Nat.div_add_mod (v.toNat % (PAGE_SIZE * c)) PAGE_SIZE
    have hdiv : v.toNat % (PAGE_SIZE * c) / PAGE_SIZE < c := Nat.div_lt_of_lt_mul hlt
    have hmul := Nat.mul_le_mul_left PAGE_SIZE (Nat.succ_le_of_lt hdiv)
    rw [Nat.mul_succ] at hmul
    omega
  apply BitVec.eq_of_toNat_eq
  rw [BitVec.toNat_add, heq, heq, (vpn_offset hi).1, BitVec.toNat_ofNat]
  have hsum : (v.toNat + i) % 2 ^ (12 + 9 * level) = v.toNat % 2 ^ (12 + 9 * level) + i := by
    rw [← Nat.mod_add_mod, Nat.mod_eq_of_lt hpage]
  rw [hsum]
  simp only [PAGE_SIZE] at hi
  omega

/-! ## The loop -/

section Loop

variable {tables : ℕ → Word} {ptable : Word} {move : Mem → Word → Word → ℕ → Mem} {bits : Word}

/-- Every byte that is moved belongs to a page of the process with these permission bits. -/
def AccessesPermitted (tables : ℕ → Word) (ptable bits : Word) (as : List Access) : Prop :=
  ∀ a ∈ as, ∀ i < a.size,
    Maps tables ptable bits (a.vaddr + BitVec.ofNat 64 i) (a.paddr + BitVec.ofNat 64 i)

/-- The bytes before the first unmapped one are in pages with these permission bits. -/
def PermittedUntilUnmapped (tables : ℕ → Word) (ptable bits user_vaddr : Word) (size : ℕ) : Prop :=
  ∀ i < size, (∀ j ≤ i, mmuTranslate tables ptable (user_vaddr + BitVec.ofNat 64 j) ≠ -1#64) →
    Permits tables ptable bits (user_vaddr + BitVec.ofNat 64 i)

theorem add_offset (v : Word) (a b : ℕ) :
    v + BitVec.ofNat 64 a + BitVec.ofNat 64 b = v + BitVec.ofNat 64 (a + b) := by
  rw [BitVec.ofNat_add, add_assoc]

/-- The first page of a range and the rest of it. -/
theorem permitted_split {v : Word} {n size : ℕ} (hn : v.toNat % PAGE_SIZE + n ≤ PAGE_SIZE)
    (hpos : 0 < n) (hle : n ≤ size) (hv : mmuTranslate tables ptable v ≠ -1#64) :
    PermittedUntilUnmapped tables ptable bits v size ↔ Permits tables ptable bits v ∧
      PermittedUntilUnmapped tables ptable bits (v + BitVec.ofNat 64 n) (size - n) := by
  have hvalid {j : ℕ} (hj : j < n) : mmuTranslate tables ptable (v + BitVec.ofNat 64 j) ≠ -1#64 := by
    rw [ne_eq, translate_invalid, leafOf_offset tables ptable (by omega), ← translate_invalid]
    exact hv
  constructor
  · intro h
    constructor
    · refine (permits_offset tables ptable (i := 0) (by omega)).1 (h 0 (by omega) fun j hj => ?_)
      exact hvalid (by omega)
    · intro i hi hall
      rw [add_offset]
      refine h (n + i) (by omega) fun j hj => ?_
      by_cases hjn : j < n
      · exact hvalid hjn
      · have hj' := hall (j - n) (by omega)
        rw [add_offset, Nat.add_sub_cancel' (by omega)] at hj'
        exact hj'
  · rintro ⟨hfirst, hrest⟩ i hi hall
    by_cases hin : i < n
    · exact (permits_offset tables ptable (by omega)).2 hfirst
    · have h := hrest (i - n) (by omega) fun j hj => by
        rw [add_offset]
        exact hall (n + j) (by omega)
      rw [add_offset, Nat.add_sub_cancel' (by omega)] at h
      exact h

theorem copyLoop_spec {fuel size : ℕ} (hf : size ≤ fuel) (os_vaddr user_vaddr : Word) (mem : Mem) :
    (AccessesPermitted tables ptable bits
        (copyLoop tables ptable move fuel os_vaddr user_vaddr size mem).accesses ↔
      PermittedUntilUnmapped tables ptable bits user_vaddr size) ∧
    ((copyLoop tables ptable move fuel os_vaddr user_vaddr size mem).ret ≠ 1 →
      ∀ i < size, mmuTranslate tables ptable (user_vaddr + BitVec.ofNat 64 i) ≠ -1#64) := by
  induction fuel generalizing size os_vaddr user_vaddr mem with
  | zero =>
    obtain rfl := Nat.le_zero.1 hf
    refine ⟨iff_of_true (fun a ha => nomatch ha) fun i hi => absurd hi (Nat.not_lt_zero i), ?_⟩
    exact fun _ i hi => absurd hi (Nat.not_lt_zero i)
  | succ fuel ih =>
    unfold copyLoop
    by_cases h0 : size = 0
    · subst h0
      rw [if_pos rfl]
      refine ⟨iff_of_true (fun a ha => nomatch ha) fun i hi => absurd hi (Nat.not_lt_zero i), ?_⟩
      exact fun _ i hi => absurd hi (Nat.not_lt_zero i)
    rw [if_neg h0]
    by_cases hv : mmuTranslate tables ptable user_vaddr = -1#64
    · simp only [if_pos hv]
      refine ⟨iff_of_true (fun a ha => nomatch ha) fun i _ hall => ?_, fun h => absurd rfl h⟩
      have h := hall 0 (Nat.zero_le i)
      rw [BitVec.add_zero] at h
      exact absurd hv h
    simp only [if_neg hv]
    have hmod := Nat.mod_lt user_vaddr.toNat (show 0 < PAGE_SIZE by decide)
    generalize hn : min (PAGE_SIZE - user_vaddr.toNat % PAGE_SIZE) size = n
    have hpage : user_vaddr.toNat % PAGE_SIZE + n ≤ PAGE_SIZE := by omega
    have hpos : 0 < n := by omega
    obtain ⟨hacc, hret⟩ := ih (show size - n ≤ fuel by omega) (os_vaddr + BitVec.ofNat 64 n)
      (user_vaddr + BitVec.ofNat 64 n) (move mem (mmuTranslate tables ptable user_vaddr) os_vaddr n)
    refine ⟨?_, fun hr i hi => ?_⟩
    · rw [permitted_split hpage hpos (by omega) hv, ← hacc]
      unfold AccessesPermitted
      rw [List.forall_mem_cons]
      refine and_congr_left fun _ => ⟨fun h => ?_, ?_⟩
      · exact (permits_offset tables ptable (i := 0) (by omega)).1 ⟨_, h 0 hpos⟩
      · rintro ⟨-, level, entry, hl, hb, -⟩ i (hi : i < n)
        have hoff : user_vaddr.toNat % PAGE_SIZE + i < PAGE_SIZE := by omega
        refine ⟨level, entry, (leafOf_offset tables ptable hoff).trans hl, hb, ?_⟩
        change leafAddr level entry (user_vaddr + BitVec.ofNat 64 i) = _
        rw [leafAddr_offset (leafFrom_level tables hl) hoff, translate_leaf tables ptable hl]
    · by_cases hin : i < n
      · rw [ne_eq, translate_invalid, leafOf_offset tables ptable (by omega), ← translate_invalid]
        exact hv
      · have h := hret hr (i - n) (by omega)
        rw [add_offset, Nat.add_sub_cancel' (by omega)] at h
        exact h

/-- A loop that writes at the physical addresses changes no byte outside its accesses. -/
theorem copyLoop_frame (fuel : ℕ) (os_vaddr user_vaddr : Word) (n : ℕ) (mem : Mem) (x : ℕ)
    (hx : ∀ a ∈ (copyLoop tables ptable (fun mem user os n => memcpy mem user os n) fuel os_vaddr
      user_vaddr n mem).accesses, x < a.paddr.toNat ∨ a.paddr.toNat + a.size ≤ x) :
    (copyLoop tables ptable (fun mem user os n => memcpy mem user os n) fuel os_vaddr
      user_vaddr n mem).mem x = mem x := by
  induction fuel generalizing os_vaddr user_vaddr n mem with
  | zero => rfl
  | succ fuel ih =>
    unfold copyLoop at hx ⊢
    by_cases h0 : n = 0
    · rw [if_pos h0]
    rw [if_neg h0] at hx ⊢
    by_cases hv : mmuTranslate tables ptable user_vaddr = -1#64
    · simp only [if_pos hv]
    simp only [if_neg hv, List.forall_mem_cons] at hx ⊢
    rw [ih _ _ _ _ hx.2]
    exact blit_outside hx.1

/-- A loop that reads at the physical addresses: two memories with the same bytes in its accesses
agree wherever it writes. -/
theorem copyLoop_reads (fuel : ℕ) (os_vaddr user_vaddr : Word) (n : ℕ) (mem mem' : Mem)
    (h : ∀ a ∈ (copyLoop tables ptable (fun mem user os n => memcpy mem os user n) fuel os_vaddr
      user_vaddr n mem).accesses, ∀ i < a.size,
        mem (a.paddr.toNat + i) = mem' (a.paddr.toNat + i)) (x : ℕ) :
    let r := copyLoop tables ptable (fun mem user os n => memcpy mem os user n) fuel os_vaddr
      user_vaddr n mem
    let r' := copyLoop tables ptable (fun mem user os n => memcpy mem os user n) fuel os_vaddr
      user_vaddr n mem'
    r.mem x = r'.mem x ∨ (r.mem x = mem x ∧ r'.mem x = mem' x) := by
  induction fuel generalizing os_vaddr user_vaddr n mem mem' with
  | zero => exact Or.inr ⟨rfl, rfl⟩
  | succ fuel ih =>
    unfold copyLoop at h ⊢
    by_cases h0 : n = 0
    · simp [if_pos h0]
    simp only [if_neg h0] at h ⊢
    by_cases hv : mmuTranslate tables ptable user_vaddr = -1#64
    · simp only [if_pos hv]
      exact Or.inr ⟨trivial, trivial⟩
    simp only [if_neg hv, List.forall_mem_cons] at h ⊢
    generalize min (PAGE_SIZE - user_vaddr.toNat % PAGE_SIZE) n = k at h ⊢
    -- after this round the memories agree where it wrote, and are the old ones elsewhere
    have hmove (x : ℕ) :
        memcpy mem os_vaddr (mmuTranslate tables ptable user_vaddr) k x
            = memcpy mem' os_vaddr (mmuTranslate tables ptable user_vaddr) k x ∨
          (memcpy mem os_vaddr (mmuTranslate tables ptable user_vaddr) k x = mem x ∧
            memcpy mem' os_vaddr (mmuTranslate tables ptable user_vaddr) k x = mem' x) := by
      unfold memcpy
      by_cases hx : os_vaddr.toNat ≤ x ∧ x < os_vaddr.toNat + k
      · rw [blit_inside hx.1 hx.2, blit_inside hx.1 hx.2]
        exact Or.inl (h.1 _ (by omega))
      · rw [blit_outside (by omega), blit_outside (by omega)]
        exact Or.inr ⟨rfl, rfl⟩
    have hstep := ih (os_vaddr + BitVec.ofNat 64 k) (user_vaddr + BitVec.ofNat 64 k) (n - k)
      (memcpy mem os_vaddr (mmuTranslate tables ptable user_vaddr) k)
      (memcpy mem' os_vaddr (mmuTranslate tables ptable user_vaddr) k)
      (fun a ha i hi => by
        rcases hmove (a.paddr.toNat + i) with he | ⟨he, he'⟩
        · exact he
        · rw [he, he']
          exact h.2 a ha i hi)
    rcases hstep with he | ⟨he, he'⟩
    · exact Or.inl he
    · rcases hmove x with hm | ⟨hm, hm'⟩
      · exact Or.inl (he.trans (hm.trans he'.symm))
      · exact Or.inr ⟨he.trans hm, he'.trans hm'⟩

end Loop

/-! ## The two functions -/

variable (mem : Mem) (os_vaddr user_vaddr : Word) (size : BitVec 32)

theorem copyToUser_frame (x : ℕ)
    (hx : ∀ a ∈ (copyToUser tables ptable mem os_vaddr user_vaddr size).accesses,
      x < a.paddr.toNat ∨ a.paddr.toNat + a.size ≤ x) :
    (copyToUser tables ptable mem os_vaddr user_vaddr size).mem x = mem x :=
  copyLoop_frame _ _ _ _ _ x hx

theorem copyToOs_reads (mem' : Mem)
    (h : ∀ a ∈ (copyToOs tables ptable mem os_vaddr user_vaddr size).accesses, ∀ i < a.size,
      mem (a.paddr.toNat + i) = mem' (a.paddr.toNat + i)) (x : ℕ) :
    (copyToOs tables ptable mem os_vaddr user_vaddr size).mem x
        = (copyToOs tables ptable mem' os_vaddr user_vaddr size).mem x ∨
      ((copyToOs tables ptable mem os_vaddr user_vaddr size).mem x = mem x ∧
        (copyToOs tables ptable mem' os_vaddr user_vaddr size).mem x = mem' x) :=
  copyLoop_reads _ _ _ _ _ _ h x

end UserAccess
