import DucreuOS.BlockTransfers
import DucreuOS.UserAccess

/-! # Setting, copying and comparing memory

`memset`, `memcpy` and `memcmp` of `utils.c`. The first two handle eight bytes at a time and then
the bytes that are left; a size is an `int`, and with a negative one no loop runs. -/
namespace MemoryFunctions

open ByteMemory

/-- `int num_8_byte_copies = size / 8` -/
def num8ByteCopies (size : BitVec 32) : ℕ := (size.sdiv 8).toInt.toNat

/-- `int num_1_byte_copies = size % 8` -/
def num1ByteCopies (size : BitVec 32) : ℕ := (size.srem 8).toInt.toNat

def store64 (m : Mem) (a : ℕ) (v : BitVec 64) : Mem := blit m a 8 (leByte v)

/-- `*ldst++ = *((long*)l)` -/
def setWords (l : BitVec 64) : ℕ → ℕ → Mem → Mem
  | 0, _, m => m
  | n + 1, ldst, m => setWords l n (ldst + 8) (store64 m ldst l)

/-- `*cdst++ = l[0]` -/
def setBytes (data : Byte) : ℕ → ℕ → Mem → Mem
  | 0, _, m => m
  | n + 1, cdst, m => setBytes data n (cdst + 1) (Function.update m cdst data)

def memset (m : Mem) (dst : ℕ) (data : Byte) (size : BitVec 32) : Mem :=
  let n := num8ByteCopies size
  setBytes data (num1ByteCopies size) (dst + 8 * n) (setWords (load64 (fun _ => data) 0) n dst m)

/-- `*ldst++ = *lsrc++` -/
def copyWords : ℕ → ℕ → ℕ → Mem → Mem
  | 0, _, _, m => m
  | n + 1, ldst, lsrc, m => copyWords n (ldst + 8) (lsrc + 8) (store64 m ldst (load64 m lsrc))

/-- `*cdst++ = *csrc++` -/
def copyBytes : ℕ → ℕ → ℕ → Mem → Mem
  | 0, _, _, m => m
  | n + 1, cdst, csrc, m => copyBytes n (cdst + 1) (csrc + 1) (Function.update m cdst (m csrc))

def memcpy (m : Mem) (dst src : ℕ) (size : BitVec 32) : Mem :=
  let n := num8ByteCopies size
  copyBytes (num1ByteCopies size) (dst + 8 * n) (src + 8 * n) (copyWords n dst src m)

/-- `for (i = 0; i < size; i++)`, with `n` bytes to go. -/
def compareBytes (m : Mem) : ℕ → ℕ → ℕ → ℕ
  | 0, _, _ => 1
  | n + 1, hay, need => if m hay ≠ m need then 0 else compareBytes m n (hay + 1) (need + 1)

/-- 1 if the bytes agree. -/
def memcmp (m : Mem) (haystack needle : ℕ) (size : BitVec 32) : ℕ :=
  compareBytes m size.toInt.toNat haystack needle

/-! ## Pieces -/

section Pieces

variable {m : Mem} {dst src n k p x a : ℕ} {f g : ℕ → Byte} {l l' : List ℕ} {size : BitVec 32}

theorem copies_size (size : BitVec 32) :
    8 * num8ByteCopies size + num1ByteCopies size = size.toInt.toNat ∧ num1ByteCopies size < 8 := by
  have hdiv : (size.sdiv 8).toInt = size.toInt.tdiv 8 :=
    BitVec.toInt_sdiv_of_ne_or_ne size 8 (.inr (by decide))
  have hrem : (size.srem 8).toInt = size.toInt.tmod 8 := BitVec.toInt_srem size 8
  rw [num8ByteCopies, num1ByteCopies, hdiv, hrem]
  rcases lt_or_ge size.toInt 0 with hneg | hpos
  · have hd : size.toInt.tdiv 8 ≤ 0 := by
      have := Int.tdiv_nonneg (a := -size.toInt) (b := 8) (by omega) (by decide)
      rw [Int.neg_tdiv] at this
      omega
    have hm : size.toInt.tmod 8 ≤ 0 := by
      have := Int.tmod_nonneg (a := -size.toInt) 8 (by omega)
      rw [Int.neg_tmod] at this
      omega
    omega
  · rw [Int.tdiv_eq_ediv_of_nonneg hpos, Int.tmod_eq_emod_of_nonneg hpos]
    omega

/-- A piece behind another one. -/
theorem blit_behind : blit (blit m a n f) (a + n) k g =
    blit m a (n + k) fun i => if i < n then f i else g (i - n) := by
  funext x
  by_cases hsecond : a + n ≤ x ∧ x < a + n + k
  · have hnot : ¬ x - a < n := by omega
    have hsub : x - (a + n) = x - a - n := by omega
    rw [blit_inside hsecond.1 hsecond.2, blit_inside (by omega) (by omega), if_neg hnot, hsub]
  · rw [blit_outside (by omega)]
    by_cases hfirst : a ≤ x ∧ x < a + n
    · rw [blit_inside hfirst.1 hfirst.2, blit_inside hfirst.1 (by omega), if_pos (by omega)]
    · rw [blit_outside (by omega), blit_outside (by omega)]

/-- Pieces of these lengths, each read as a whole before it is written. -/
def moved : List ℕ → ℕ → ℕ → Mem → Mem
  | [], _, _, m => m
  | n :: l, dst, src, m => moved l (dst + n) (src + n) (blit m dst n (window m src))

theorem moved_append : moved (l ++ l') dst src m =
    moved l' (dst + l.sum) (src + l.sum) (moved l dst src m) := by
  induction l generalizing dst src m with
  | nil => rfl
  | cons n l ih => rw [List.cons_append, moved, ih, List.sum_cons, Nat.add_assoc, Nat.add_assoc]; rfl

theorem store64_load64 : store64 m dst (load64 m src) = blit m dst 8 (window m src) :=
  blit_congr fun _ hi => leByte_load64 m src hi

theorem copyWords_eq : copyWords n dst src m = moved (List.replicate n 8) dst src m := by
  induction n generalizing dst src m with
  | zero => rfl
  | succ n ih => rw [copyWords, ih, store64_load64]; rfl

theorem copyBytes_eq : copyBytes n dst src m = moved (List.replicate n 1) dst src m := by
  induction n generalizing dst src m with
  | zero => rfl
  | succ n ih =>
    have hone : Function.update m dst (m src) = blit m dst 1 (window m src) := by
      rw [blit_succ, blit_zero]
      rfl
    rw [copyBytes, ih, hone]
    rfl

/-- The pieces of a `memcpy`. -/
def pieces (size : BitVec 32) : List ℕ :=
  List.replicate (num8ByteCopies size) 8 ++ List.replicate (num1ByteCopies size) 1

theorem pieces_sum : (pieces size).sum = size.toInt.toNat := by
  rw [pieces, List.sum_append, List.sum_replicate, List.sum_replicate, ← (copies_size size).1]
  simp only [smul_eq_mul]
  omega

theorem memcpy_pieces : memcpy m dst src size = moved (pieces size) dst src m := by
  have hsum : (List.replicate (num8ByteCopies size) 8).sum = 8 * num8ByteCopies size := by
    rw [List.sum_replicate, smul_eq_mul, Nat.mul_comm]
  rw [memcpy, copyBytes_eq, copyWords_eq, pieces, moved_append, hsum]

/-- No byte is written before it is read. -/
theorem moved_apart (h : dst ≤ src ∨ src + l.sum ≤ dst) :
    moved l dst src m = blit m dst l.sum (window m src) := by
  induction l generalizing dst src m with
  | nil => exact (blit_zero m dst _).symm
  | cons n l ih =>
    rw [List.sum_cons] at h ⊢
    have hread (i : ℕ) (hi : i < l.sum) :
        window (blit m dst n (window m src)) (src + n) i = window m src (n + i) := by
      rw [window, blit_outside (by omega), window, Nat.add_assoc]
    rw [moved, ih (by omega), blit_congr hread, blit_behind]
    refine blit_congr fun i hi => ?_
    split_ifs with hfirst
    · rfl
    · rw [Nat.add_sub_cancel' (not_lt.mp hfirst)]

theorem moved_below (h : x < dst) : moved l dst src m x = m x := by
  induction l generalizing dst src m with
  | nil => rfl
  | cons n l ih => rw [moved, ih (by omega), blit_outside (by omega)]

/-- A byte in front of all that is written is copied as it is. -/
theorem moved_at (hp : p < l.sum) (h : src + p < dst) : moved l dst src m (dst + p) = m (src + p) := by
  induction l generalizing dst src m p with
  | nil => exact absurd hp (Nat.not_lt_zero _)
  | cons n l ih =>
    rw [moved]
    rcases lt_or_ge p n with hfirst | hlater
    · rw [moved_below (by omega), blit_inside (by omega) (by omega), Nat.add_sub_cancel_left]
      rfl
    · obtain ⟨q, rfl⟩ := Nat.exists_eq_add_of_le hlater
      rw [List.sum_cons] at hp
      have hlast : moved l (dst + n) (src + n) (blit m dst n (window m src)) (dst + n + q) =
          blit m dst n (window m src) (src + n + q) := ih (by omega) (by omega)
      rw [Nat.add_assoc, Nat.add_assoc] at hlast
      rw [hlast, blit_outside (by omega)]

/-- A piece that is followed by others spoils a later one that starts inside of it. -/
theorem moved_spoils (hn : 0 < n) (hl : 0 < l.sum) (h : src < dst) (hend : dst < src + (n + l.sum)) :
    ∃ m, moved (n :: l) dst src m ≠ blit m dst (n + l.sum) (window m src) := by
  -- the byte that the first piece writes where a later one reads
  let t := n - (dst - src)
  let p := t + (dst - src)
  let m : Mem := fun x => if x = src + t then 1 else 0
  refine ⟨m, fun heq => ?_⟩
  have hp : p - n < l.sum := by omega
  have hlater : moved l (dst + n) (src + n) (blit m dst n (window m src)) (dst + n + (p - n)) =
      blit m dst n (window m src) (src + n + (p - n)) := moved_at hp (by omega)
  have hdst : dst + n + (p - n) = dst + p := by omega
  have hsrc : src + n + (p - n) = dst + t := by omega
  have hat := congrFun heq (dst + p)
  rw [moved, ← hdst, hlater, hsrc, blit_inside (by omega) (by omega), blit_inside (by omega) (by omega)]
    at hat
  have hfirst : dst + t - dst = t := Nat.add_sub_cancel_left ..
  have hlast : ¬ src + (dst + n + (p - n) - dst) = src + t := by omega
  have hone : m (src + t) = 1 := if_pos rfl
  have hzero : m (src + (dst + n + (p - n) - dst)) = 0 := if_neg hlast
  have hbytes : m (src + t) = m (src + (dst + n + (p - n) - dst)) := by
    simpa only [window, hfirst] using hat
  rw [hone, hzero] at hbytes
  exact absurd hbytes (by decide)

theorem setWords_eq {data : Byte} :
    setWords (load64 (fun _ => data) 0) n dst m = fill m dst (8 * n) data := by
  have hstore (m : Mem) (a : ℕ) : store64 m a (load64 (fun _ => data) 0) = fill m a 8 data :=
    blit_congr fun i hi => leByte_load64 (fun _ => data) 0 hi
  induction n generalizing dst m with
  | zero => exact (blit_zero m dst _).symm
  | succ n ih =>
    have hlen : 8 * (n + 1) = 8 + 8 * n := by omega
    rw [setWords, hstore, ih, fill, fill, fill, blit_behind, hlen]
    exact blit_congr fun i _ => ite_self data

theorem setBytes_eq {data : Byte} : setBytes data n dst m = fill m dst n data := by
  induction n generalizing dst m with
  | zero => exact (blit_zero m dst _).symm
  | succ n ih => rw [setBytes, ih, fill, fill, blit_succ]

theorem compareBytes_eq : compareBytes m n dst src = if ∀ i < n, m (dst + i) = m (src + i) then 1 else 0 := by
  induction n generalizing dst src with
  | zero => simp [compareBytes]
  | succ n ih =>
    have hrest : (∀ i < n + 1, m (dst + i) = m (src + i)) ↔
        m dst = m src ∧ ∀ i < n, m (dst + 1 + i) = m (src + 1 + i) := by
      rw [Nat.forall_lt_succ_left]
      simp only [Nat.add_zero, Nat.add_assoc, Nat.add_comm 1]
    rw [compareBytes, ih]
    by_cases heq : m dst = m src
    · simp only [hrest, heq, ne_eq, not_true_eq_false, if_false, true_and]
    · rw [if_pos heq, if_neg fun h => heq (hrest.mp h).1]

end Pieces

/-! ## The functions -/

variable {m : Mem} {dst src : ℕ} {size : BitVec 32}

theorem memset_eq (m : Mem) (dst : ℕ) (data : Byte) (size : BitVec 32) :
    memset m dst data size = fill m dst size.toInt.toNat data := by
  rw [memset, setWords_eq, setBytes_eq, fill, fill, fill, blit_behind, (copies_size size).1]
  exact blit_congr fun i _ => ite_self data

theorem memcpy_eq (h : dst ≤ src ∨ src + size.toInt.toNat ≤ dst) :
    memcpy m dst src size = blit m dst size.toInt.toNat (window m src) := by
  rw [memcpy_pieces, moved_apart (by rwa [pieces_sum]), pieces_sum]

/-- The copy is that of the bytes that were there before, unless a later piece reads what an earlier
one has written. One word is one piece. -/
theorem memcpy_moves_iff (dst src : ℕ) (size : BitVec 32) :
    (∀ m, memcpy m dst src size = blit m dst size.toInt.toNat (window m src)) ↔
      dst ≤ src ∨ src + size.toInt.toNat ≤ dst ∨ size = 8 := by
  have hsize := copies_size size
  constructor
  · intro h
    by_contra hnot
    obtain ⟨hover, hend, hword⟩ : src < dst ∧ dst < src + size.toInt.toNat ∧ size ≠ 8 := by
      rw [not_or, not_or] at hnot
      exact ⟨not_le.mp hnot.1, not_le.mp hnot.2.1, hnot.2.2⟩
    have hne : size.toInt.toNat ≠ 8 := by
      intro h8
      have hint : size.toInt = (8 : BitVec 32).toInt := by
        change size.toInt = 8
        omega
      exact hword (BitVec.eq_of_toInt_eq hint)
    -- there is more than one piece
    obtain ⟨n, l, hl, hn, hrest⟩ : ∃ n l, pieces size = n :: l ∧ 0 < n ∧ 0 < l.sum := by
      have hsum : (pieces size).sum = size.toInt.toNat := pieces_sum
      rcases Nat.eq_zero_or_pos (num8ByteCopies size) with hzero | hpos
      · obtain ⟨k, hk⟩ := Nat.exists_eq_add_of_lt (by omega : 1 < num1ByteCopies size)
        refine ⟨1, List.replicate (1 + k) 1, ?_, Nat.one_pos, ?_⟩
        · rw [pieces, hzero, hk]
          rfl
        · rw [List.sum_replicate, smul_eq_mul]
          omega
      · obtain ⟨k, hk⟩ := Nat.exists_eq_succ_of_ne_zero hpos.ne'
        refine ⟨8, List.replicate k 8 ++ List.replicate (num1ByteCopies size) 1, ?_, by decide, ?_⟩
        · rw [pieces, hk]
          rfl
        · rw [List.sum_append, List.sum_replicate, List.sum_replicate]
          simp only [smul_eq_mul]
          omega
    have hsum : (pieces size).sum = size.toInt.toNat := pieces_sum
    rw [hl, List.sum_cons] at hsum
    obtain ⟨m, hm⟩ := moved_spoils hn hrest hover (by omega)
    have hcopy := h m
    rw [memcpy_pieces, hl, ← hsum] at hcopy
    exact hm hcopy
  · rintro (hbelow | habove | rfl) m
    · exact memcpy_eq (.inl hbelow)
    · exact memcpy_eq (.inr habove)
    · rw [memcpy_pieces]
      rfl

theorem memcmp_eq (m : Mem) (haystack needle : ℕ) (size : BitVec 32) : memcmp m haystack needle size =
    if ∀ i < size.toInt.toNat, m (haystack + i) = m (needle + i) then 1 else 0 :=
  compareBytes_eq

/-! ## The copies of the callers -/

theorem memcpy_blocks (h : dst ≤ src ∨ src + size.toInt.toNat ≤ dst) :
    BlockTransfers.memcpy m dst src size = memcpy m dst src size :=
  (memcpy_eq h).symm

theorem memcpy_user {dst src : PageTable.Word} {k : ℕ} (hk : k < 2 ^ 31)
    (h : dst ≤ src ∨ src.toNat + k ≤ dst.toNat) :
    UserAccess.memcpy m dst src k = memcpy m dst.toNat src.toNat (BitVec.ofNat 32 k) := by
  have hnat : (BitVec.ofNat 32 k).toNat = k := Nat.mod_eq_of_lt (hk.trans (by decide))
  have hsize : (BitVec.ofNat 32 k).toInt.toNat = k := by
    rw [BitVec.toInt_eq_toNat_of_lt (by omega), hnat, Int.toNat_natCast]
  rw [memcpy_eq (by rw [hsize]; exact h), hsize]
  rfl

end MemoryFunctions
