import Mathlib

/-! # Byte-addressed memory

Total memories, block transfers, little-endian words and packed bit arrays.
Reads of a transfer are decided by whether the address lies in the written range. -/
namespace ByteMemory

abbrev Byte := BitVec 8

/-- A memory or a device: one byte at every natural address. -/
abbrev Mem := ℕ → Byte

/-- Write the `n` bytes `f 0, …, f (n - 1)` from address `a` on. -/
def blit (m : Mem) (a n : ℕ) (f : ℕ → Byte) : Mem :=
  fun x => if a ≤ x ∧ x < a + n then f (x - a) else m x

def fill (m : Mem) (a n : ℕ) (b : Byte) : Mem := blit m a n (fun _ => b)

/-- The bytes of `m` from `a` on, as a buffer of its own. -/
def window (m : Mem) (a : ℕ) : ℕ → Byte := fun i => m (a + i)

theorem blit_inside {m : Mem} {a n x : ℕ} {f : ℕ → Byte} (h : a ≤ x) (h' : x < a + n) :
    blit m a n f x = f (x - a) := by
  simp [blit, h, h']

theorem blit_outside {m : Mem} {a n x : ℕ} {f : ℕ → Byte} (h : x < a ∨ a + n ≤ x) :
    blit m a n f x = m x := by
  have hx : ¬ (a ≤ x ∧ x < a + n) := by omega
  simp [blit, hx]

@[simp] theorem blit_zero (m : Mem) (a : ℕ) (f : ℕ → Byte) : blit m a 0 f = m := by
  funext x; exact blit_outside (by omega)

theorem blit_congr {m : Mem} {a n : ℕ} {f g : ℕ → Byte} (h : ∀ i < n, f i = g i) :
    blit m a n f = blit m a n g := by
  funext x
  by_cases hx : a ≤ x ∧ x < a + n
  · rw [blit_inside hx.1 hx.2, blit_inside hx.1 hx.2, h (x - a) (by omega)]
  · rw [blit_outside (by omega), blit_outside (by omega)]

/-- The first byte, and then the others. -/
theorem blit_succ (m : Mem) (a n : ℕ) (f : ℕ → Byte) :
    blit m a (n + 1) f = blit (Function.update m a (f 0)) (a + 1) n fun i => f (i + 1) := by
  funext x
  by_cases hx : a + 1 ≤ x ∧ x < a + 1 + n
  · have hsub : x - a = x - (a + 1) + 1 := by omega
    rw [blit_inside (by omega) (by omega), blit_inside hx.1 hx.2, hsub]
  · rw [blit_outside (m := Function.update m a (f 0)) (by omega)]
    by_cases ha : x = a
    · rw [ha, Function.update_self, blit_inside le_rfl (by omega), Nat.sub_self]
    · rw [Function.update_of_ne ha, blit_outside (by omega)]

/-- Behind the bytes that are written. -/
theorem update_blit (m : Mem) (a n : ℕ) (f : ℕ → Byte) :
    Function.update (blit m a n f) (a + n) (f n) = blit m a (n + 1) f := by
  funext x
  by_cases hx : x = a + n
  · rw [hx, Function.update_self, blit_inside (by omega) (by omega), Nat.add_sub_cancel_left]
  · rw [Function.update_of_ne hx]
    by_cases hin : a ≤ x ∧ x < a + n
    · rw [blit_inside hin.1 hin.2, blit_inside hin.1 (by omega)]
    · rw [blit_outside (by omega), blit_outside (by omega)]

/-- Writing back what is already there changes nothing. -/
theorem blit_window (m : Mem) (a n : ℕ) : blit m a n (window m a) = m := by
  funext x
  by_cases hx : a ≤ x ∧ x < a + n
  · rw [blit_inside hx.1 hx.2, window, Nat.add_sub_cancel' hx.1]
  · exact blit_outside (by omega)

/-- The first `n` bytes of a buffer. -/
def listed (m : Mem) (n : ℕ) : List Byte := (List.range n).map m

@[simp] theorem length_listed (m : Mem) (n : ℕ) : (listed m n).length = n := by
  simp [listed]

@[simp] theorem listed_zero (m : Mem) : listed m 0 = [] := rfl

theorem listed_congr {m m' : Mem} {n : ℕ} (h : ∀ k < n, m k = m' k) : listed m n = listed m' n :=
  List.map_congr_left fun k hk => h k (List.mem_range.mp hk)

theorem getD_listed (m : Mem) {n k : ℕ} (h : k < n) : (listed m n).getD k 0 = m k := by
  rw [List.getD_eq_getElem _ _ (by rwa [length_listed])]
  simp [listed]

theorem listed_add (m : Mem) (a b : ℕ) : listed m (a + b) = listed m a ++ listed (window m a) b := by
  simp only [listed, List.range_add, List.map_append, List.map_map]
  rfl

/-- A narrow write inside a buffer, transferred back, is the narrow write in place. -/
theorem blit_blit_window {m : Mem} {a n o k : ℕ} {f : ℕ → Byte} (h : o + k ≤ n) :
    blit m a n (blit (window m a) o k f) = blit m (a + o) k f := by
  funext x
  by_cases hx : a + o ≤ x ∧ x < a + o + k
  · rw [blit_inside (by omega) (by omega), blit_inside (by omega) (by omega),
      blit_inside hx.1 hx.2]
    congr 1; omega
  · rw [blit_outside (a := a + o) (by omega)]
    by_cases hn : a ≤ x ∧ x < a + n
    · rw [blit_inside hn.1 hn.2, blit_outside (by omega), window, Nat.add_sub_cancel' hn.1]
    · exact blit_outside (by omega)

/-! ## Little-endian words -/

/-- Byte `i` of a word, least significant first. -/
def leByte {w : ℕ} (v : BitVec w) (i : ℕ) : Byte := (v >>> (8 * i)).setWidth 8

def load16 (m : Mem) (a : ℕ) : BitVec 16 := m (a + 1) ++ m a

def load32 (m : Mem) (a : ℕ) : BitVec 32 := m (a + 3) ++ m (a + 2) ++ m (a + 1) ++ m a

def store16 (m : Mem) (a : ℕ) (v : BitVec 16) : Mem := blit m a 2 (leByte v)

def store32 (m : Mem) (a : ℕ) (v : BitVec 32) : Mem := blit m a 4 (leByte v)

theorem load16_congr {m m' : Mem} {a a' : ℕ} (h : ∀ i < 2, m (a + i) = m' (a' + i)) :
    load16 m a = load16 m' a' := by
  have h0 := h 0 (by omega); have h1 := h 1 (by omega)
  simp only [Nat.add_zero] at h0
  simp only [load16, h0, h1]

theorem load32_congr {m m' : Mem} {a a' : ℕ} (h : ∀ i < 4, m (a + i) = m' (a' + i)) :
    load32 m a = load32 m' a' := by
  have h0 := h 0 (by omega); have h1 := h 1 (by omega)
  have h2 := h 2 (by omega); have h3 := h 3 (by omega)
  simp only [Nat.add_zero] at h0
  simp only [load32, h0, h1, h2, h3]

theorem load16_leByte {m : Mem} {a : ℕ} {v : BitVec 16} (h : ∀ i < 2, m (a + i) = leByte v i) :
    load16 m a = v := by
  have h0 := h 0 (by omega); have h1 := h 1 (by omega)
  simp only [Nat.add_zero] at h0
  simp only [load16, h0, h1, leByte]
  ext i hi
  simp only [BitVec.getElem_append, BitVec.getElem_setWidth, BitVec.getLsbD_ushiftRight]
  split <;> simp <;> grind

theorem load32_leByte {m : Mem} {a : ℕ} {v : BitVec 32} (h : ∀ i < 4, m (a + i) = leByte v i) :
    load32 m a = v := by
  have h0 := h 0 (by omega); have h1 := h 1 (by omega)
  have h2 := h 2 (by omega); have h3 := h 3 (by omega)
  simp only [Nat.add_zero] at h0
  simp only [load32, h0, h1, h2, h3, leByte]
  ext i hi
  simp only [BitVec.getElem_append, BitVec.getElem_setWidth, BitVec.getLsbD_ushiftRight]
  split_ifs <;> simp <;> grind

theorem load32_store32 (m : Mem) (a : ℕ) (v : BitVec 32) : load32 (store32 m a v) a = v :=
  load32_leByte fun i hi => by
    rw [store32, blit_inside (by omega) (by omega), Nat.add_sub_cancel_left]

theorem load32_blit_disjoint {m : Mem} {a n b : ℕ} {f : ℕ → Byte} (h : b + 4 ≤ a ∨ a + n ≤ b) :
    load32 (blit m a n f) b = load32 m b :=
  load32_congr fun i hi => blit_outside (by omega)

theorem load16_blit_disjoint {m : Mem} {a n b : ℕ} {f : ℕ → Byte} (h : b + 2 ≤ a ∨ a + n ≤ b) :
    load16 (blit m a n f) b = load16 m b :=
  load16_congr fun i hi => blit_outside (by omega)

theorem load32_window (m : Mem) (a b : ℕ) : load32 (window m a) b = load32 m (a + b) :=
  load32_congr fun i _ => by simp [window, Nat.add_assoc]

/-! ## The bytes of a memory of words -/

def load64 (m : Mem) (a : ℕ) : BitVec 64 := load32 m (a + 4) ++ load32 m a

theorem leByte_eq_iff {w : ℕ} (v : BitVec w) (i : ℕ) (b : Byte) :
    leByte v i = b ↔ ∀ j < 8, v.getLsbD (8 * i + j) = b.getLsbD j := by
  constructor
  · intro h j hj
    rw [← h]
    simp [leByte, hj]
  · intro h
    apply BitVec.eq_of_getLsbD_eq
    intro j hj
    simp [leByte, h j hj, hj]

/-- A bit of a word is a bit of one of its bytes. -/
theorem load32_getLsbD (m : Mem) (a i : ℕ) (hi : i < 32) :
    (load32 m a).getLsbD i = (m (a + i / 8)).getLsbD (i % 8) := by
  have h0 : (load32 m a).getLsbD i = if i < 8 then (m a).getLsbD i
      else (m (a + 3) ++ m (a + 2) ++ m (a + 1) : BitVec 24).getLsbD (i - 8) := BitVec.getLsbD_append
  have h1 : (m (a + 3) ++ m (a + 2) ++ m (a + 1) : BitVec 24).getLsbD (i - 8)
      = if i - 8 < 8 then (m (a + 1)).getLsbD (i - 8)
      else (m (a + 3) ++ m (a + 2) : BitVec 16).getLsbD (i - 8 - 8) := BitVec.getLsbD_append
  have h2 : (m (a + 3) ++ m (a + 2) : BitVec 16).getLsbD (i - 8 - 8)
      = if i - 8 - 8 < 8 then (m (a + 2)).getLsbD (i - 8 - 8)
      else (m (a + 3)).getLsbD (i - 8 - 8 - 8) := BitVec.getLsbD_append
  rw [h0, h1, h2]
  split_ifs with c0 c1 c2
  · rw [show i / 8 = 0 by omega, show i % 8 = i by omega, Nat.add_zero]
  · rw [show i / 8 = 1 by omega, show i % 8 = i - 8 by omega]
  · rw [show i / 8 = 2 by omega, show i % 8 = i - 8 - 8 by omega]
  · rw [show i / 8 = 3 by omega, show i % 8 = i - 8 - 8 - 8 by omega]

theorem load64_getLsbD (m : Mem) (a i : ℕ) (hi : i < 64) :
    (load64 m a).getLsbD i = (m (a + i / 8)).getLsbD (i % 8) := by
  have h : (load64 m a).getLsbD i
      = if i < 32 then (load32 m a).getLsbD i else (load32 m (a + 4)).getLsbD (i - 32) :=
    BitVec.getLsbD_append
  rw [h]
  split_ifs with c
  · exact load32_getLsbD m a i c
  · rw [load32_getLsbD m (a + 4) (i - 32) (by omega),
      show a + 4 + (i - 32) / 8 = a + i / 8 by omega, show (i - 32) % 8 = i % 8 by omega]

theorem leByte_load64 (m : Mem) (a : ℕ) {i : ℕ} (hi : i < 8) : leByte (load64 m a) i = m (a + i) := by
  rw [leByte_eq_iff]
  intro j hj
  rw [load64_getLsbD m a _ (by omega), show (8 * i + j) / 8 = i by omega,
    show (8 * i + j) % 8 = j by omega]

theorem load64_leByte {m : Mem} {a : ℕ} {v : BitVec 64} (h : ∀ i < 8, m (a + i) = leByte v i) :
    load64 m a = v := by
  apply BitVec.eq_of_getLsbD_eq
  intro j hj
  have hbyte := congrArg (BitVec.getLsbD · (j % 8))
    ((leByte_load64 m a (i := j / 8) (by omega)).trans (h (j / 8) (by omega)))
  have hj8 : 8 * (j / 8) + j % 8 = j := Nat.div_add_mod j 8
  have hmod : j % 8 < 8 := Nat.mod_lt _ (by decide)
  simpa [leByte, hj8, hmod] using hbyte

/-- The bytes of the words at the addresses that are multiples of 8. -/
def bytes (w : ℕ → BitVec 64) : Mem := fun x => leByte (w (8 * (x / 8))) (x % 8)

/-- Write bytes into a memory of words. -/
def writeBytes (w : ℕ → BitVec 64) (a n : ℕ) (f : ℕ → Byte) : ℕ → BitVec 64 :=
  fun y => if y % 8 = 0 then load64 (blit (bytes w) a n f) y else w y

theorem bytes_writeBytes (w : ℕ → BitVec 64) (a n : ℕ) (f : ℕ → Byte) :
    bytes (writeBytes w a n f) = blit (bytes w) a n f := by
  funext x
  have hmod : x % 8 < 8 := Nat.mod_lt _ (by decide)
  change leByte (writeBytes w a n f (8 * (x / 8))) (x % 8) = _
  unfold writeBytes
  rw [if_pos (Nat.mul_mod_right 8 _), leByte_load64 _ _ hmod, Nat.div_add_mod]

theorem writeBytes_outside {w : ℕ → BitVec 64} {a n y : ℕ} {f : ℕ → Byte}
    (h : y + 8 ≤ a ∨ a + n ≤ y) : writeBytes w a n f y = w y := by
  unfold writeBytes
  by_cases hy : y % 8 = 0
  · rw [if_pos hy]
    refine load64_leByte fun i hi => ?_
    rw [blit_outside (by omega)]
    unfold bytes
    rw [show 8 * ((y + i) / 8) = y by omega, show (y + i) % 8 = i by omega]
  · rw [if_neg hy]

theorem bytes_congr {w w' : ℕ → BitVec 64} {x : ℕ} (h : w' (8 * (x / 8)) = w (8 * (x / 8))) :
    bytes w' x = bytes w x := by
  unfold bytes
  rw [h]

/-! ## Packed bit arrays -/

/-- Bit `j` of the array packed eight bits a byte from `base` on. -/
def bitAt (m : Mem) (base j : ℕ) : Bool := (m (base + j / 8)).getLsbD (j % 8)

def setBit (m : Mem) (base j : ℕ) : Mem :=
  Function.update m (base + j / 8) (m (base + j / 8) ||| 1#8 <<< (j % 8))

def clearBit (m : Mem) (base j : ℕ) : Mem :=
  Function.update m (base + j / 8) (m (base + j / 8) &&& ~~~(1#8 <<< (j % 8)))

theorem mask_bit {i k : ℕ} (hi : i < 8) :
    (1#8 <<< k).getLsbD i = decide (i = k) := by
  by_cases h : i = k
  · subst h; simp [hi]
  · simp only [BitVec.getLsbD_shiftLeft, hi, decide_true, Bool.true_and, h, decide_false,
      Bool.and_eq_false_iff, Bool.not_eq_false']
    by_cases hk : i < k
    · left; simpa using hk
    · right; simp only [BitVec.getLsbD_one]; simp; omega

@[grind =] theorem bitAt_setBit (m : Mem) (base j k : ℕ) :
    bitAt (setBit m base j) base k = (decide (k = j) || bitAt m base k) := by
  unfold bitAt setBit
  by_cases hb : k / 8 = j / 8
  · rw [hb, Function.update_self, BitVec.getLsbD_or, mask_bit (Nat.mod_lt _ (by omega)),
      Bool.or_comm]
    congr 1
    exact decide_eq_decide.mpr (by omega)
  · have hk : k ≠ j := fun h => hb (by rw [h])
    rw [Function.update_of_ne (by omega)]
    simp [hk]

@[grind =] theorem bitAt_clearBit (m : Mem) (base j k : ℕ) :
    bitAt (clearBit m base j) base k = (!decide (k = j) && bitAt m base k) := by
  unfold bitAt clearBit
  by_cases hb : k / 8 = j / 8
  · rw [hb, Function.update_self, BitVec.getLsbD_and, BitVec.getLsbD_not,
      mask_bit (Nat.mod_lt _ (by omega)), Bool.and_comm]
    congr 1
    have : k % 8 < 8 := Nat.mod_lt _ (by omega)
    simp only [this, decide_true, Bool.true_and]
    congr 1
    exact decide_eq_decide.mpr (by omega)
  · have hk : k ≠ j := fun h => hb (by rw [h])
    rw [Function.update_of_ne (by omega)]
    simp [hk]

theorem setBit_apart {m : Mem} {base j x : ℕ} (h : x ≠ base + j / 8) :
    setBit m base j x = m x := by
  rw [setBit, Function.update_of_ne h]

theorem clearBit_apart {m : Mem} {base j x : ℕ} (h : x ≠ base + j / 8) :
    clearBit m base j x = m x := by
  rw [clearBit, Function.update_of_ne h]

/-- Two memories that agree on the bytes of a bit array agree on its bits. -/
theorem bitAt_congr {m m' : Mem} {base j : ℕ} (h : m (base + j / 8) = m' (base + j / 8)) :
    bitAt m base j = bitAt m' base j := by
  simp only [bitAt, h]

/-- Bit `j` of a packed array is stored as `b`, and no other bit of the memory changes. -/
structure StoresBit (m m' : Mem) (base j : ℕ) (b : Bool) : Prop where
  bit : bitAt m' base j = b
  others (x i : ℕ) : ¬ (x = base + j / 8 ∧ i = j % 8) → (m' x).getLsbD i = (m x).getLsbD i

theorem StoresBit.apart {m m' : Mem} {base j x : ℕ} {b : Bool} (h : StoresBit m m' base j b)
    (hx : x ≠ base + j / 8) : m' x = m x :=
  BitVec.eq_of_getLsbD_eq fun i _ => h.others x i fun hbit => hx hbit.1

theorem StoresBit.other {m m' : Mem} {base base' j k : ℕ} {b : Bool} (h : StoresBit m m' base j b)
    (hk : base' + k / 8 = base + j / 8 → k % 8 ≠ j % 8) : bitAt m' base' k = bitAt m base' k :=
  h.others _ _ fun hbit => hk hbit.1 hbit.2

end ByteMemory
