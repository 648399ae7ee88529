import DucreuOS.Library.PointerTree
import DucreuOS.Library.Transition

/-! # Sv39 page tables

`mmu_set` writes three levels of 512-entry tables, creating the lower two lazily;
`mmu_translate` reads them back. Table pages come from `page_zalloc`, here a supply of pages.
The lock and the console messages are not modelled. -/
namespace PageTable

open PointerTree Transition

abbrev Word := BitVec 64

def PTEB_VALID : Word := 1#64 <<< 0
def PTEB_READ : Word := 1#64 <<< 1
def PTEB_WRITE : Word := 1#64 <<< 2
def PTEB_EXECUTE : Word := 1#64 <<< 3
def PTEB_USER : Word := 1#64 <<< 4

def PAGE_SIZE : ℕ := 4096

/-- Physical memory as 8-byte words at their byte addresses, and the pages that
`page_zalloc` will hand out; it returns NULL when there are none. -/
structure Machine where
  mem : ℕ → Word
  pages : List Word

def zeroPage (mem : ℕ → Word) (p : Word) : ℕ → Word :=
  fun x => if p.toNat ≤ x ∧ x < p.toNat + PAGE_SIZE then 0 else mem x

def pageZalloc (s : Machine) : Word × Machine :=
  match s.pages with
  | [] => (0, s)
  | p :: ps => (p, ⟨zeroPage s.mem p, ps⟩)

theorem vpn_lt (vaddr : Word) (k : ℕ) : ((vaddr >>> k) &&& 0x1FF#64).toNat < 512 := by
  rw [BitVec.toNat_and]
  exact Nat.lt_of_le_of_lt Nat.and_le_right (by decide)

/-- There is a lowest level. -/
instance neZero_levels : NeZero 3 := ⟨by decide⟩

/-- The three 9-bit indexes of a virtual address; index 2 selects in the root. -/
def vpn (vaddr : Word) (level : Fin 3) : Fin 512 :=
  ⟨((vaddr >>> (12 + 9 * level.val)) &&& 0x1FF#64).toNat, vpn_lt _ _⟩

/-- Address of entry `i` of the table at `pt`. -/
def entryAddr (pt : Word) (i : Fin 512) : ℕ := pt.toNat + 8 * i.val

def lower (entry : Word) : Word := (entry <<< 2) &&& ~~~0xFFF#64

/-- One level of the walk of `mmu_set`: follow the entry, allocating a table if it is invalid. -/
def nextTable (s : Machine) (pt : Word) (i : Fin 512) : Word × Machine :=
  let entry := s.mem (entryAddr pt i)
  if entry &&& PTEB_VALID = 0#64 then
    let (new_table, s) := pageZalloc s
    let entry := (new_table >>> 2) ||| PTEB_VALID
    (lower entry, { s with mem := Function.update s.mem (entryAddr pt i) entry })
  else (lower entry, s)

def leafBits (paddr bits : Word) : Word :=
  (((paddr >>> 30) &&& 0x3FFFFFF#64) <<< 28) ||| (((paddr >>> 21) &&& 0x1FF#64) <<< 19) |||
    (((paddr >>> 12) &&& 0x1FF#64) <<< 10) ||| bits

def mmuSet (s : Machine) (pt vaddr paddr bits : Word) : Machine :=
  let (pt, s) := nextTable s pt (vpn vaddr 2)
  let (pt, s) := nextTable s pt (vpn vaddr 1)
  { s with mem := Function.update s.mem (entryAddr pt (vpn vaddr 0)) (leafBits paddr bits) }

def mmuMap (s : Machine) (pt vaddr paddr bits : Word) : ℤ × Machine :=
  if bits &&& 0xe#64 = 0#64 then (-1, s)
  else (0, mmuSet s pt vaddr paddr (bits ||| PTEB_VALID))

def mmuUnmap (s : Machine) (pt vaddr : Word) : Machine := mmuSet s pt vaddr 0 0

/-- The loop of `mmu_map_multiple` from page `i` on, with `n` pages to go. -/
def mapPages (pt start_vaddr start_paddr bits : Word) : ℕ → ℕ → Machine → Machine
  | 0, _, s => s
  | n + 1, i, s =>
    let off := BitVec.ofNat 64 (PAGE_SIZE * i)
    let r := mmuMap s pt (start_vaddr + off) (start_paddr + off) bits
    if r.1 ≠ 0 then r.2 else mapPages pt start_vaddr start_paddr bits n (i + 1) r.2

def mmuMapMultiple (s : Machine) (pt start_vaddr start_paddr : Word) (bytes : ℕ) (bits : Word) :
    Machine :=
  mapPages pt start_vaddr start_paddr bits ((bytes + PAGE_SIZE - 1) / PAGE_SIZE) 0 s

/-- The physical address a leaf found at `level` gives. -/
def leafAddr (level : ℕ) (entry vaddr : Word) : Word :=
  let ppn0 := (entry >>> 10) &&& 0x1FF#64
  let ppn1 := (entry >>> 19) &&& 0x1FF#64
  let ppn2 := (entry >>> 28) &&& 0x3FFFFFF#64
  match level with
  | 2 => (ppn2 <<< 30) ||| (vaddr &&& 0x3FFFFFFF#64)
  | 1 => (ppn2 <<< 30) ||| (ppn1 <<< 21) ||| (vaddr &&& 0x1FFFFF#64)
  | 0 => (ppn2 <<< 30) ||| (ppn1 <<< 21) ||| (ppn0 <<< 12) ||| (vaddr &&& 0xFFF#64)
  | _ => -1#64

/-- The loop of `mmu_translate` from a level down to 0. -/
def translateFrom (mem : ℕ → Word) (vaddr : Word) : (level : ℕ) → level < 3 → Word → Word
  | 0, _, pt =>
    let entry := mem (entryAddr pt (vpn vaddr 0))
    if entry &&& PTEB_VALID = 0#64 then -1#64
    else if entry &&& 0xe#64 ≠ 0#64 then leafAddr 0 entry vaddr
    else -1#64
  | i + 1, h, pt =>
    let entry := mem (entryAddr pt (vpn vaddr ⟨i + 1, h⟩))
    if entry &&& PTEB_VALID = 0#64 then -1#64
    else if entry &&& 0xe#64 ≠ 0#64 then leafAddr (i + 1) entry vaddr
    else translateFrom mem vaddr i (by omega) (lower entry)

def mmuTranslate (mem : ℕ → Word) (pt vaddr : Word) : Word :=
  translateFrom mem vaddr 2 (by omega) pt

/-! ## Bit fields -/

theorem low_mask (n i : ℕ) (hn : n ≤ 64) :
    (BitVec.ofNat 64 (2 ^ n - 1)).getLsbD i = decide (i < n) := by
  simp only [BitVec.getLsbD_ofNat, Nat.testBit_two_pow_sub_one]
  by_cases h : i < n
  · simp [h]; omega
  · simp [h]

private theorem mask9 (i : ℕ) : (0x1FF#64).getLsbD i = decide (i < 9) := low_mask 9 i (by omega)
private theorem mask12 (i : ℕ) : (0xFFF#64).getLsbD i = decide (i < 12) := low_mask 12 i (by omega)
private theorem mask26 (i : ℕ) : (0x3FFFFFF#64).getLsbD i = decide (i < 26) :=
  low_mask 26 i (by omega)

private theorem valid_bit (i : ℕ) : PTEB_VALID.getLsbD i = decide (i = 0) := by
  simp [PTEB_VALID, BitVec.getLsbD_one]

private theorem rwx_bit (i : ℕ) : (0xe#64).getLsbD i = decide (1 ≤ i ∧ i < 4) := by
  by_cases h : i < 4
  · interval_cases i <;> rfl
  · rw [BitVec.getLsbD_ofNat, Nat.testBit_lt_two_pow]
    · simp [h]
    · exact lt_of_lt_of_le (by norm_num) (Nat.pow_le_pow_right (by omega) (show 4 ≤ i by omega))

theorem getLsbD_eq_false_of_lt {p : Word} {k i : ℕ} (h : p.toNat < 2 ^ k) (hi : k ≤ i) :
    p.getLsbD i = false :=
  Nat.testBit_lt_two_pow (lt_of_lt_of_le h (Nat.pow_le_pow_right (by omega) hi))

def Aligned (p : Word) : Prop := p.toNat % PAGE_SIZE = 0

instance (p : Word) : Decidable (Aligned p) := inferInstanceAs (Decidable (_ = _))

theorem Aligned.low_bits {p : Word} (h : Aligned p) {i : ℕ} (hi : i < 12) :
    p.getLsbD i = false := by
  obtain ⟨q, hq⟩ := Nat.dvd_of_mod_eq_zero h
  rw [BitVec.getLsbD, hq, show PAGE_SIZE = 2 ^ 12 from rfl, Nat.testBit_two_pow_mul]
  simp [hi]

/-- A table entry leads back to the page it was made from. -/
theorem lower_entry {p : Word} (h : Aligned p) : lower ((p >>> 2) ||| PTEB_VALID) = p := by
  refine BitVec.eq_of_getLsbD_eq fun i hi => ?_
  simp only [lower, BitVec.getLsbD_and, BitVec.getLsbD_shiftLeft, BitVec.getLsbD_or,
    BitVec.getLsbD_ushiftRight, BitVec.getLsbD_not, mask12, valid_bit]
  by_cases h12 : i < 12
  · rw [h.low_bits h12]; simp [h12]
  · have hlow : i - 2 ≠ 0 := by omega
    rw [show 2 + (i - 2) = i by omega]
    simp [hi, h12, hlow]; omega

theorem entry_valid (p : Word) : ((p >>> 2) ||| PTEB_VALID) &&& PTEB_VALID ≠ 0#64 := by
  intro h
  have hbit := congrArg (fun x => BitVec.getLsbD x 0) h
  simp only [BitVec.getLsbD_and, BitVec.getLsbD_or, valid_bit] at hbit
  simp at hbit

/-- The entry of a lower table has none of the R, W and X bits. -/
theorem entry_branch {p : Word} (h : Aligned p) :
    ((p >>> 2) ||| PTEB_VALID) &&& 0xe#64 = 0#64 := by
  refine BitVec.eq_of_getLsbD_eq fun i hi => ?_
  simp only [BitVec.getLsbD_and, BitVec.getLsbD_or, BitVec.getLsbD_ushiftRight, rwx_bit, valid_bit]
  by_cases h4 : 1 ≤ i ∧ i < 4
  · rw [h.low_bits (by omega)]; simp; omega
  · simp [h4]

section Leaf
variable {paddr bits vaddr : Word}

theorem leaf_valid (paddr bits : Word) : leafBits paddr (bits ||| PTEB_VALID) &&& PTEB_VALID ≠ 0#64 := by
  intro h
  have hbit := congrArg (fun x => BitVec.getLsbD x 0) h
  simp only [leafBits, BitVec.getLsbD_and, BitVec.getLsbD_or, valid_bit] at hbit
  simp at hbit

theorem leaf_rwx (hb : bits &&& 0xe#64 ≠ 0#64) :
    leafBits paddr (bits ||| PTEB_VALID) &&& 0xe#64 ≠ 0#64 := by
  intro h
  refine hb (BitVec.eq_of_getLsbD_eq fun i hi => ?_)
  have hi' := congrArg (fun x => BitVec.getLsbD x i) h
  simp only [leafBits, BitVec.getLsbD_and, BitVec.getLsbD_or, rwx_bit] at hi' ⊢
  grind

theorem leaf_unmapped : leafBits 0 0 &&& PTEB_VALID = 0#64 := by decide

/-- The reader's shifts undo the writer's for permission bits below bit 10. -/
theorem leafAddr_leafBits (hp : paddr.toNat < 2 ^ 56) (hb : bits.toNat < 2 ^ 10) :
    leafAddr 0 (leafBits paddr (bits ||| PTEB_VALID)) vaddr =
      (paddr &&& ~~~0xFFF#64) ||| (vaddr &&& 0xFFF#64) := by
  refine BitVec.eq_of_getLsbD_eq fun i hi => ?_
  simp only [leafAddr, leafBits, BitVec.getLsbD_and, BitVec.getLsbD_or, BitVec.getLsbD_shiftLeft,
    BitVec.getLsbD_ushiftRight, BitVec.getLsbD_not, mask9, mask12, mask26, valid_bit]
  have hhigh : ∀ j, 56 ≤ j → paddr.getLsbD j = false := fun j => getLsbD_eq_false_of_lt hp
  have hbits : ∀ j, 10 ≤ j → bits.getLsbD j = false := fun j => getLsbD_eq_false_of_lt hb
  grind

end Leaf

/-! ## Tables as a tree -/

def child (mem : ℕ → Word) (t : Word) (i : Fin 512) : Option Word :=
  let entry := mem (entryAddr t i)
  if entry &&& PTEB_VALID = 0#64 then none else some (lower entry)

theorem entryAddr_inj {a b : Word} (ha : Aligned a) (hb : Aligned b) {i j : Fin 512}
    (h : entryAddr a i = entryAddr b j) : a = b ∧ i = j := by
  simp only [entryAddr, Aligned, PAGE_SIZE] at *
  have := i.isLt; have := j.isLt
  exact ⟨BitVec.eq_of_toNat_eq (by omega), Fin.ext (by omega)⟩

theorem zeroPage_entry {mem : ℕ → Word} {p t : Word} (hp : Aligned p) (ht : Aligned t)
    (hne : t ≠ p) (i : Fin 512) : zeroPage mem p (entryAddr t i) = mem (entryAddr t i) := by
  have hne' : t.toNat ≠ p.toNat := fun h => hne (BitVec.eq_of_toNat_eq h)
  simp only [Aligned, PAGE_SIZE] at hp ht
  have := i.isLt
  rw [zeroPage, if_neg (by simp only [entryAddr, PAGE_SIZE]; omega)]

theorem zeroPage_own (mem : ℕ → Word) (p : Word) (i : Fin 512) :
    zeroPage mem p (entryAddr p i) = 0 := by
  have := i.isLt
  rw [zeroPage, if_pos (by simp only [entryAddr, PAGE_SIZE]; omega)]

/-- The tables of a root: three levels, page-aligned, never shared, with no leaf above
the last level. -/
structure Tree (mem : ℕ → Word) (root : Word) : Prop where
  aligned : ∀ a, InTree (child mem) root 2 a → Aligned a
  noAlias : NoAlias (child mem) root 2
  branch : ∀ σ : List (Fin 512), σ.length < 2 → ∀ a, walk (child mem) root σ = some a →
    ∀ i, child mem a i ≠ none → mem (entryAddr a i) &&& 0xe#64 = 0#64

/-- The pages that `page_zalloc` returns are page-aligned, distinct and not in the tree. -/
structure FreshPages (mem : ℕ → Word) (root : Word) (pages : List Word) : Prop where
  nodup : pages.Nodup
  aligned : ∀ p ∈ pages, Aligned p
  fresh : ∀ p ∈ pages, ¬ InTree (child mem) root 2 p

/-- The last-level entry of a virtual address, zero when a table on the way is missing. -/
def leafEntry (mem : ℕ → Word) (root vaddr : Word) : Word :=
  match walk (child mem) root [vpn vaddr 1, vpn vaddr 2] with
  | some t => mem (entryAddr t (vpn vaddr 0))
  | none => 0

/-- What `mmu_translate` returns for a last-level entry. -/
def translateEntry (entry vaddr : Word) : Word :=
  if entry &&& PTEB_VALID = 0#64 then -1#64
  else if entry &&& 0xe#64 ≠ 0#64 then leafAddr 0 entry vaddr
  else -1#64

section Tree
variable {mem : ℕ → Word} {root : Word}

theorem child_none {t : Word} {i : Fin 512} (h : mem (entryAddr t i) &&& PTEB_VALID = 0#64) :
    child mem t i = none := by
  simp [child, h]

theorem child_some {t : Word} {i : Fin 512} (h : mem (entryAddr t i) &&& PTEB_VALID ≠ 0#64) :
    child mem t i = some (lower (mem (entryAddr t i))) := by
  simp [child, h]

/-- One step of the walk down: at an inner table the entry is invalid or leads to a table. -/
theorem Tree.translate_step (hT : Tree mem root) {σ : List (Fin 512)} (hσ : σ.length < 2)
    {t : Word} (ht : walk (child mem) root σ = some t) (vaddr : Word) {i : ℕ} (hi : i + 1 < 3) :
    translateFrom mem vaddr (i + 1) hi t =
      match child mem t (vpn vaddr ⟨i + 1, hi⟩) with
      | some t' => translateFrom mem vaddr i (by omega) t'
      | none => -1#64 := by
  rw [translateFrom]
  by_cases hv : mem (entryAddr t (vpn vaddr ⟨i + 1, hi⟩)) &&& PTEB_VALID = 0#64
  · simp [hv, child_none hv]
  · have hc := child_some hv
    have hb := hT.branch σ hσ t ht _ (by rw [hc]; simp)
    simp [hv, hc, hb]

theorem Tree.translate_eq (hT : Tree mem root) (vaddr : Word) :
    mmuTranslate mem root vaddr = translateEntry (leafEntry mem root vaddr) vaddr := by
  have h2 := hT.translate_step (σ := []) (by simp) rfl vaddr (i := 1) (by omega)
  rw [mmuTranslate, h2, leafEntry, walk_cons, walk_cons, walk_nil, Option.bind_some]
  change (match child mem root (vpn vaddr 2) with
    | some t' => translateFrom mem vaddr 1 _ t'
    | none => -1#64) = _
  cases hc2 : child mem root (vpn vaddr 2) with
  | none => simp [translateEntry]
  | some t =>
    have hw : walk (child mem) root [vpn vaddr 2] = some t := walk_cons_some rfl hc2
    have h1 := hT.translate_step (by simp) hw vaddr (i := 0) (by omega)
    rw [Option.bind_some]
    change translateFrom mem vaddr 1 _ t = _
    rw [h1]
    change (match child mem t (vpn vaddr 1) with
      | some t' => translateFrom mem vaddr 0 _ t'
      | none => -1#64) = _
    cases child mem t (vpn vaddr 1) with
    | none => simp [translateEntry]
    | some u => rfl

end Tree

/-- The same 4 KiB page, with virtual addresses taken modulo `2 ^ 39`. -/
def SamePage (v w : Word) : Prop := v.toNat / PAGE_SIZE % 2 ^ 27 = w.toNat / PAGE_SIZE % 2 ^ 27

instance (v w : Word) : Decidable (SamePage v w) := inferInstanceAs (Decidable (_ = _))

theorem vpn_val (v : Word) (l : Fin 3) : (vpn v l).val = v.toNat / 2 ^ (12 + 9 * l.val) % 512 := by
  have hmask : (0x1FF#64).toNat = 2 ^ 9 - 1 := rfl
  simp only [vpn, BitVec.toNat_and, hmask, BitVec.toNat_ushiftRight, Nat.and_two_pow_sub_one_eq_mod,
    Nat.shiftRight_eq_div_pow]

theorem samePage_iff (v w : Word) :
    SamePage v w ↔ vpn v 2 = vpn w 2 ∧ vpn v 1 = vpn w 1 ∧ vpn v 0 = vpn w 0 := by
  simp only [Fin.ext_iff, vpn_val, SamePage, PAGE_SIZE]
  norm_num
  omega

section Writes
variable {root : Word} {s : Machine}

private theorem nextTable_fresh (hT : Tree s.mem root) {π : List (Fin 512)} {t p : Word}
    (hπ : π.length < 2) (hw : walk (child s.mem) root π = some t) (k : Fin 512)
    (hnone : child s.mem t k = none) (hp : Aligned p) (hfresh : ¬ InTree (child s.mem) root 2 p) :
    let mem' := Function.update (zeroPage s.mem p) (entryAddr t k) ((p >>> 2) ||| PTEB_VALID)
    Link (child s.mem) (child mem') root 2 π t p k ∧ Tree mem' root ∧
      ∀ v, leafEntry mem' root v = leafEntry s.mem root v := by
  intro mem'
  have ht : Aligned t := hT.aligned t ⟨π, by omega, hw⟩
  have htp : p ≠ t := fun he => hfresh ⟨π, by omega, he ▸ hw⟩
  have hown : ∀ i, mem' (entryAddr p i) = 0 := fun i => by
    change Function.update _ _ _ _ = _
    rw [Function.update_of_ne fun he => htp (entryAddr_inj hp ht he).1, zeroPage_own]
  have hself : mem' (entryAddr t k) = (p >>> 2) ||| PTEB_VALID := Function.update_self ..
  have hkeep : ∀ a, InTree (child s.mem) root 2 a → ∀ i, (a ≠ t ∨ i ≠ k) →
      mem' (entryAddr a i) = s.mem (entryAddr a i) := by
    intro a ha i hne
    have hal := hT.aligned a ha
    have hap : a ≠ p := fun he => hfresh (he ▸ ha)
    change Function.update _ _ _ _ = _
    rw [Function.update_of_ne, zeroPage_entry hp hal hap]
    intro he
    obtain ⟨h1, h2⟩ := entryAddr_inj hal ht he
    exact hne.elim (fun h => h h1) (fun h => h h2)
  have hlink : Link (child s.mem) (child mem') root 2 π t p k := by
    refine ⟨hπ, hw, hnone, hfresh, ?_, ?_, ?_⟩
    · rw [child_some (by rw [hself]; exact entry_valid p), hself, lower_entry hp]
    · intro i
      exact child_none (by rw [hown i]; rfl)
    · intro σ hσ a ha i hne
      simp only [child, hkeep a ⟨σ, by omega, ha⟩ i hne]
  refine ⟨hlink, ⟨?_, hlink.noAlias hT.noAlias, ?_⟩, ?_⟩
  · intro a ha
    rcases (hlink.inTree_iff hT.noAlias).mp ha with rfl | ha
    · exact hp
    · exact hT.aligned a ha
  · intro σ hσ a ha i hc
    rw [hlink.walk_eq hT.noAlias σ (by omega)] at ha
    split at ha
    · cases ha
      exact absurd (hlink.leaf i) hc
    · by_cases hak : a = t ∧ i = k
      · rw [hak.1, hak.2, hself]
        exact entry_branch hp
      · have hne : a ≠ t ∨ i ≠ k := by tauto
        rw [hkeep a ⟨σ, by omega, ha⟩ i hne]
        rw [hlink.elsewhere σ hσ a ha i hne] at hc
        exact hT.branch σ hσ a ha i hc
  · intro v
    rw [leafEntry, leafEntry, hlink.walk_eq hT.noAlias _ (by simp)]
    split_ifs with hσ
    · rw [hσ, walk_cons, hw, Option.bind_some, hnone]
      exact hown _
    · cases hu : walk (child s.mem) root [vpn v 1, vpn v 2] with
      | none => rfl
      | some u =>
        refine hkeep u ⟨_, by simp, hu⟩ _ (Or.inl fun he => ?_)
        have hlen := hT.noAlias _ π (by simp) (by omega) u hu (he ▸ hw)
        rw [← hlen] at hπ
        simp at hπ

/-- Where the table is missing, the entry leads to the page that `page_zalloc` returns. -/
theorem nextTable_granted {t p : Word} {ps : List Word} {k : Fin 512}
    (hc : child s.mem t k = none) (hps : s.pages = p :: ps) (hp : Aligned p) :
    nextTable s t k = (p, ⟨Function.update (zeroPage s.mem p) (entryAddr t k)
      ((p >>> 2) ||| PTEB_VALID), ps⟩) := by
  have hinvalid : s.mem (entryAddr t k) &&& PTEB_VALID = 0#64 := by
    by_contra hv
    exact Option.some_ne_none _ ((child_some hv).symm.trans hc)
  simp only [nextTable, hinvalid, if_true, pageZalloc, hps, lower_entry hp]

/-- Following an entry keeps every translation and ends at the table of the longer path. -/
theorem nextTable_spec (hT : Tree s.mem root) (hf : FreshPages s.mem root s.pages) {n : ℕ}
    (hn : n + 1 ≤ s.pages.length) {π : List (Fin 512)} {t : Word} (hπ : π.length < 2)
    (hw : walk (child s.mem) root π = some t) (k : Fin 512) :
    Tree (nextTable s t k).2.mem root ∧
    walk (child (nextTable s t k).2.mem) root (k :: π) = some (nextTable s t k).1 ∧
    (∀ v, leafEntry (nextTable s t k).2.mem root v = leafEntry s.mem root v) ∧
    FreshPages (nextTable s t k).2.mem root (nextTable s t k).2.pages ∧
    n ≤ (nextTable s t k).2.pages.length := by
  by_cases hv : s.mem (entryAddr t k) &&& PTEB_VALID = 0#64
  · obtain ⟨p, ps, hps⟩ : ∃ p ps, s.pages = p :: ps := by
      cases hs : s.pages with
      | nil => rw [hs] at hn; simp at hn
      | cons p ps => exact ⟨p, ps, rfl⟩
    have hp := hf.aligned p (by simp [hps])
    obtain ⟨hlink, hT', hleaf⟩ := nextTable_fresh hT hπ hw k (child_none hv) hp
      (hf.fresh p (by simp [hps]))
    have hnext := nextTable_granted (child_none hv) hps hp
    have hnd := hf.nodup
    rw [hps, List.nodup_cons] at hnd
    rw [hnext]
    refine ⟨hT', ?_, hleaf, ⟨hnd.2, fun q hq => hf.aligned q (by simp [hps, hq]), ?_⟩, ?_⟩
    · rw [hlink.walk_eq hT.noAlias (k :: π) (Nat.succ_le_of_lt hπ), if_pos rfl]
    · intro q hq hin
      rcases (hlink.inTree_iff hT.noAlias).mp hin with rfl | hin
      · exact hnd.1 hq
      · exact hf.fresh q (by simp [hps, hq]) hin
    · rw [hps, List.length_cons] at hn
      exact Nat.le_of_succ_le_succ hn
  · have hnext : nextTable s t k = (lower (s.mem (entryAddr t k)), s) := by
      simp only [nextTable, if_neg hv]
    rw [hnext]
    exact ⟨hT, walk_cons_some hw (child_some hv), fun _ => rfl, hf, Nat.le_of_succ_le hn⟩

/-- Writing an entry of a last-level table changes that entry only. -/
private theorem setLeaf_spec (hT : Tree s.mem root) (hf : FreshPages s.mem root s.pages)
    {i j : Fin 512} {t : Word} (hw : walk (child s.mem) root [j, i] = some t) (k : Fin 512)
    (e : Word) :
    let mem' := Function.update s.mem (entryAddr t k) e
    Tree mem' root ∧ FreshPages mem' root s.pages ∧
    ∀ v, leafEntry mem' root v =
      if vpn v 2 = i ∧ vpn v 1 = j ∧ vpn v 0 = k then e else leafEntry s.mem root v := by
  intro mem'
  have ht : Aligned t := hT.aligned t ⟨_, by simp, hw⟩
  have hkeep : ∀ σ : List (Fin 512), σ.length < 2 → ∀ a, walk (child s.mem) root σ = some a →
      ∀ l, mem' (entryAddr a l) = s.mem (entryAddr a l) := by
    intro σ hσ a ha l
    refine Function.update_of_ne (fun he => ?_) _ _
    have hat := (entryAddr_inj (hT.aligned a ⟨σ, by omega, ha⟩) ht he).1
    have hlen := hT.noAlias σ _ (by omega) (by simp) a ha (hat ▸ hw)
    rw [hlen] at hσ
    simp at hσ
  have hwalk : ∀ σ : List (Fin 512), σ.length ≤ 2 →
      walk (child mem') root σ = walk (child s.mem) root σ :=
    walk_congr fun σ hσ a ha l => by simp only [child, hkeep σ hσ a ha l]
  have hin : ∀ a, InTree (child mem') root 2 a ↔ InTree (child s.mem) root 2 a := fun a =>
    exists_congr fun σ => and_congr_right fun hσ => by rw [hwalk σ hσ]
  refine ⟨⟨?_, ?_, ?_⟩, ⟨hf.nodup, hf.aligned, ?_⟩, ?_⟩
  · exact fun a ha => hT.aligned a ((hin a).mp ha)
  · intro σ τ hσ hτ a h1 h2
    exact hT.noAlias σ τ hσ hτ a (hwalk σ hσ ▸ h1) (hwalk τ hτ ▸ h2)
  · intro σ hσ a ha l hc
    rw [hwalk σ (by omega)] at ha
    rw [hkeep σ hσ a ha l]
    simp only [child, hkeep σ hσ a ha l] at hc
    exact hT.branch σ hσ a ha l hc
  · exact fun q hq h => hf.fresh q hq ((hin q).mp h)
  · intro v
    rw [leafEntry, leafEntry, hwalk _ (by simp)]
    by_cases hv : vpn v 2 = i ∧ vpn v 1 = j
    · rw [hv.1, hv.2, hw]
      by_cases hk : vpn v 0 = k
      · simp only [hk, and_self, if_true]
        exact Function.update_self ..
      · simp only [hk, and_false, if_false]
        exact Function.update_of_ne (fun he => hk (entryAddr_inj ht ht he).2) _ _
    · rw [if_neg fun h => hv ⟨h.1, h.2.1⟩]
      cases hu : walk (child s.mem) root [vpn v 1, vpn v 2] with
      | none => rfl
      | some u =>
        refine Function.update_of_ne (fun he => hv ?_) _ _
        have hut := (entryAddr_inj (hT.aligned u ⟨_, by simp, hu⟩) ht he).1
        have hpath := hT.noAlias _ _ (by simp) (by simp) u hu (hut ▸ hw)
        simp only [List.cons.injEq, and_true] at hpath
        exact ⟨hpath.2, hpath.1⟩

/-- `mmu_set` replaces the last-level entry of one page and keeps the others. -/
theorem mmuSet_spec (hT : Tree s.mem root) (hf : FreshPages s.mem root s.pages) {n : ℕ}
    (hn : n + 2 ≤ s.pages.length) (vaddr paddr bits : Word) :
    Tree (mmuSet s root vaddr paddr bits).mem root ∧
    FreshPages (mmuSet s root vaddr paddr bits).mem root (mmuSet s root vaddr paddr bits).pages ∧
    n ≤ (mmuSet s root vaddr paddr bits).pages.length ∧
    ∀ v, leafEntry (mmuSet s root vaddr paddr bits).mem root v =
      if SamePage v vaddr then leafBits paddr bits else leafEntry s.mem root v := by
  obtain ⟨hT1, hw1, hl1, hf1, hn1⟩ :=
    nextTable_spec hT hf (n := n + 1) (by omega) (by simp) (walk_nil _ root) (vpn vaddr 2)
  obtain ⟨hT2, hw2, hl2, hf2, hn2⟩ :=
    nextTable_spec hT1 hf1 (n := n) hn1 (by simp) hw1 (vpn vaddr 1)
  obtain ⟨hT3, hf3, hl3⟩ := setLeaf_spec hT2 hf2 hw2 (vpn vaddr 0) (leafBits paddr bits)
  refine ⟨hT3, hf3, hn2, fun v => ?_⟩
  rw [show leafEntry (mmuSet s root vaddr paddr bits).mem root v = _ from hl3 v, hl2, hl1]
  simp only [samePage_iff]

/-- Mapping with some of R, W, X set gives the page its new translation. -/
structure MapEffect (mem mem' : ℕ → Word) (root vaddr paddr : Word) : Prop where
  mapped : ∀ v, SamePage v vaddr → (mmuTranslate mem' root v).toNat =
    paddr.toNat / PAGE_SIZE * PAGE_SIZE + v.toNat % PAGE_SIZE
  others : ∀ v, ¬ SamePage v vaddr → mmuTranslate mem' root v = mmuTranslate mem root v

structure UnmapEffect (mem mem' : ℕ → Word) (root vaddr : Word) : Prop where
  unmapped : ∀ v, SamePage v vaddr → mmuTranslate mem' root v = -1#64
  others : ∀ v, ¬ SamePage v vaddr → mmuTranslate mem' root v = mmuTranslate mem root v

private theorem page_plus_offset (p v : Word) :
    ((p &&& ~~~0xFFF#64) ||| (v &&& 0xFFF#64)).toNat =
      p.toNat / PAGE_SIZE * PAGE_SIZE + v.toNat % PAGE_SIZE := by
  have hp : p &&& ~~~0xFFF#64 = (p >>> 12) <<< 12 := by
    refine BitVec.eq_of_getLsbD_eq fun i hi => ?_
    simp only [BitVec.getLsbD_and, BitVec.getLsbD_not, BitVec.getLsbD_shiftLeft,
      BitVec.getLsbD_ushiftRight, mask12]
    grind
  have hadd : (p &&& ~~~0xFFF#64) ||| (v &&& 0xFFF#64) = (p >>> 12) <<< 12 + (v &&& 0xFFF#64) := by
    rw [hp, BitVec.add_eq_or_of_and_eq_zero]
    refine BitVec.eq_of_getLsbD_eq fun i hi => ?_
    simp only [BitVec.getLsbD_and, BitVec.getLsbD_shiftLeft, BitVec.getLsbD_ushiftRight, mask12,
      BitVec.getLsbD_zero]
    grind
  have hmask : (0xFFF#64).toNat = 2 ^ 12 - 1 := rfl
  have := p.isLt
  rw [hadd, BitVec.toNat_add, BitVec.toNat_and, hmask, Nat.and_two_pow_sub_one_eq_mod,
    BitVec.toNat_shiftLeft, BitVec.toNat_ushiftRight, Nat.shiftRight_eq_div_pow,
    Nat.shiftLeft_eq]
  simp only [PAGE_SIZE]
  omega

/-- What the walk makes of a leaf that was written for a page. -/
theorem translateEntry_leafBits {vaddr paddr bits : Word} (hp : paddr.toNat < 2 ^ 56)
    (hb : bits.toNat < 2 ^ 10) (hrwx : bits &&& 0xe#64 ≠ 0#64) :
    (translateEntry (leafBits paddr (bits ||| PTEB_VALID)) vaddr).toNat =
      paddr.toNat / PAGE_SIZE * PAGE_SIZE + vaddr.toNat % PAGE_SIZE := by
  rw [translateEntry, if_neg (leaf_valid _ _), if_pos (leaf_rwx hrwx), leafAddr_leafBits hp hb,
    page_plus_offset]

private theorem leafAddr_lt (e v : Word) : (leafAddr 0 e v).toNat < 2 ^ 56 := by
  have hfield (x : Word) (n k : ℕ) (h : x.toNat < 2 ^ n) (hk : n + k ≤ 56) :
      (x <<< k).toNat < 2 ^ 56 := by
    rw [BitVec.toNat_shiftLeft, Nat.shiftLeft_eq]
    refine Nat.lt_of_le_of_lt (Nat.mod_le _ _) ?_
    calc x.toNat * 2 ^ k < 2 ^ n * 2 ^ k := Nat.mul_lt_mul_of_pos_right h (Nat.two_pow_pos k)
      _ = 2 ^ (n + k) := (Nat.pow_add 2 n k).symm
      _ ≤ 2 ^ 56 := Nat.pow_le_pow_right (by decide) hk
  have hmask (x m : Word) (n : ℕ) (h : m.toNat < 2 ^ n) : (x &&& m).toNat < 2 ^ n := by
    rw [BitVec.toNat_and]
    exact Nat.lt_of_le_of_lt Nat.and_le_right h
  simp only [leafAddr, BitVec.toNat_or]
  refine Nat.or_lt_two_pow (Nat.or_lt_two_pow (Nat.or_lt_two_pow ?_ ?_) ?_) ?_
  · exact hfield _ 26 30 (hmask _ _ 26 (by decide)) (by decide)
  · exact hfield _ 9 21 (hmask _ _ 9 (by decide)) (by decide)
  · exact hfield _ 9 12 (hmask _ _ 9 (by decide)) (by decide)
  · exact hmask _ _ 56 (by decide)

/-- A leaf gives a physical page to which each address adds its offset. -/
theorem translateEntry_mapped {e : Word} (hv : e &&& PTEB_VALID ≠ 0#64)
    (hrwx : e &&& 0xe#64 ≠ 0#64) : ∃ base, base + PAGE_SIZE ≤ 2 ^ 56 ∧
      ∀ v : Word, (translateEntry e v).toNat = base + v.toNat % PAGE_SIZE := by
  refine ⟨(leafAddr 0 e 0).toNat / PAGE_SIZE * PAGE_SIZE, ?_, fun v => ?_⟩
  · have := leafAddr_lt e 0
    unfold PAGE_SIZE
    omega
  · rw [translateEntry, if_neg hv, if_pos hrwx, ← page_plus_offset]
    congr 1
    refine BitVec.eq_of_getLsbD_eq fun i hi => ?_
    simp only [leafAddr, BitVec.getLsbD_and, BitVec.getLsbD_or, BitVec.getLsbD_shiftLeft,
      BitVec.getLsbD_ushiftRight, BitVec.getLsbD_not, mask9, mask12, mask26]
    grind

/-- An entry that is no leaf gives -1. -/
theorem translateEntry_page (e : Word) : (∀ v, translateEntry e v = -1#64) ∨
    ∃ base, base + PAGE_SIZE ≤ 2 ^ 56 ∧
      ∀ v : Word, (translateEntry e v).toNat = base + v.toNat % PAGE_SIZE := by
  by_cases hv : e &&& PTEB_VALID = 0#64
  · exact Or.inl fun v => by rw [translateEntry, if_pos hv]
  · by_cases hrwx : e &&& 0xe#64 = 0#64
    · exact Or.inl fun v => by rw [translateEntry, if_neg hv, if_neg (not_not.2 hrwx)]
    · exact Or.inr (translateEntry_mapped hv hrwx)

theorem mmuMap_effect (hT : Tree s.mem root) (hf : FreshPages s.mem root s.pages)
    (hn : 2 ≤ s.pages.length) {vaddr paddr bits : Word} (hp : paddr.toNat < 2 ^ 56)
    (hb : bits.toNat < 2 ^ 10) (hrwx : bits &&& 0xe#64 ≠ 0#64) :
    MapEffect s.mem (mmuMap s root vaddr paddr bits).2.mem root vaddr paddr := by
  obtain ⟨hT', -, -, hl⟩ := mmuSet_spec hT hf (n := 0) hn vaddr paddr (bits ||| PTEB_VALID)
  simp only [mmuMap, if_neg hrwx]
  refine ⟨fun v hv => ?_, fun v hv => ?_⟩
  · rw [hT'.translate_eq, hl, if_pos hv, translateEntry_leafBits hp hb hrwx]
  · rw [hT'.translate_eq, hT.translate_eq, hl, if_neg hv]

theorem mmuUnmap_effect (hT : Tree s.mem root) (hf : FreshPages s.mem root s.pages)
    (hn : 2 ≤ s.pages.length) (vaddr : Word) :
    UnmapEffect s.mem (mmuUnmap s root vaddr).mem root vaddr := by
  obtain ⟨hT', -, -, hl⟩ := mmuSet_spec hT hf (n := 0) hn vaddr 0 0
  refine ⟨fun v hv => ?_, fun v hv => ?_⟩
  · rw [mmuUnmap, hT'.translate_eq, hl, if_pos hv, translateEntry, if_pos leaf_unmapped]
  · rw [mmuUnmap, hT'.translate_eq, hT.translate_eq, hl, if_neg hv]

/-- `mmu_map` keeps the tree, whatever its bits. -/
private theorem mmuMap_keeps (hT : Tree s.mem root) (hf : FreshPages s.mem root s.pages) {n : ℕ}
    (hn : n + 2 ≤ s.pages.length) (vaddr paddr bits : Word) :
    Tree (mmuMap s root vaddr paddr bits).2.mem root ∧
    FreshPages (mmuMap s root vaddr paddr bits).2.mem root
      (mmuMap s root vaddr paddr bits).2.pages ∧
    n ≤ (mmuMap s root vaddr paddr bits).2.pages.length := by
  rw [mmuMap]
  split
  · exact ⟨hT, hf, Nat.le_of_add_right_le hn⟩
  · obtain ⟨h1, h2, h3, -⟩ := mmuSet_spec hT hf hn vaddr paddr (bits ||| PTEB_VALID)
    exact ⟨h1, h2, h3⟩

private theorem mapPages_keeps {start_vaddr start_paddr bits : Word} {n i : ℕ} {s : Machine}
    (hT : Tree s.mem root) (hf : FreshPages s.mem root s.pages) (hn : 2 * n ≤ s.pages.length) :
    Tree (mapPages root start_vaddr start_paddr bits n i s).mem root := by
  induction n generalizing i s with
  | zero => exact hT
  | succ n ih =>
    obtain ⟨h1, h2, h3⟩ := mmuMap_keeps hT hf (n := 2 * n) (by omega)
      (start_vaddr + BitVec.ofNat 64 (PAGE_SIZE * i)) (start_paddr + BitVec.ofNat 64 (PAGE_SIZE * i))
      bits
    rw [mapPages]
    split
    · exact h1
    · exact ih h1 h2 h3

/-! ## The pages a series of writes uses -/

/-- Address `y` is not in the page at `a`. -/
def Outside (y : ℕ) (a : Word) : Prop := y < a.toNat ∨ a.toNat + PAGE_SIZE ≤ y

/-- The tables of a root grew by the pages `used` of the supply, and nothing was written outside
the tables. -/
structure Uses (root : Word) (s s' : Machine) (used : List Word) : Prop where
  pages : s.pages = used ++ s'.pages
  inTree (a : Word) : InTree (child s'.mem) root 2 a ↔ a ∈ used ∨ InTree (child s.mem) root 2 a
  frame (y : ℕ) : (∀ a, InTree (child s'.mem) root 2 a → Outside y a) → s'.mem y = s.mem y

theorem Uses.refl (root : Word) (s : Machine) : Uses root s s [] :=
  ⟨rfl, fun a => by simp, fun _ _ => rfl⟩

theorem Uses.trans {s s' s'' : Machine} {used used' : List Word} (h : Uses root s s' used)
    (k : Uses root s' s'' used') : Uses root s s'' (used ++ used') := by
  refine ⟨?_, fun a => ?_, fun y hy => ?_⟩
  · rw [h.pages, k.pages, List.append_assoc]
  · rw [k.inTree, h.inTree, List.mem_append]
    tauto
  · rw [k.frame y hy]
    exact h.frame y fun a ha => hy a ((k.inTree a).2 (Or.inr ha))

theorem entry_of_outside {y : ℕ} {a : Word} (hy : Outside y a) (i : Fin 512) : y ≠ entryAddr a i := by
  have hi := i.isLt
  unfold Outside at hy
  simp only [entryAddr, PAGE_SIZE] at hy ⊢
  omega

theorem nextTable_uses (hT : Tree s.mem root) (hf : FreshPages s.mem root s.pages)
    (hn : 1 ≤ s.pages.length) {π : List (Fin 512)} {t : Word} (hπ : π.length < 2)
    (hw : walk (child s.mem) root π = some t) (k : Fin 512) :
    ∃ used, Uses root s (nextTable s t k).2 used := by
  by_cases hv : s.mem (entryAddr t k) &&& PTEB_VALID = 0#64
  · obtain ⟨p, ps, hps⟩ := List.exists_cons_of_length_pos hn
    have hp := hf.aligned p (by simp [hps])
    obtain ⟨hlink, -, -⟩ := nextTable_fresh hT hπ hw k (child_none hv) hp
      (hf.fresh p (by simp [hps]))
    have hnext : nextTable s t k = (p, ⟨Function.update (zeroPage s.mem p) (entryAddr t k)
        ((p >>> 2) ||| PTEB_VALID), ps⟩) := by
      simp only [nextTable, hv, if_true, pageZalloc, hps, lower_entry hp]
    rw [hnext]
    refine ⟨[p], hps, fun a => ?_, fun y hy => ?_⟩
    · rw [hlink.inTree_iff hT.noAlias, List.mem_singleton]
    · have hyp := hy p ((hlink.inTree_iff hT.noAlias).2 (Or.inl rfl))
      have hyt := hy t ((hlink.inTree_iff hT.noAlias).2 (Or.inr ⟨π, by omega, hw⟩))
      change Function.update _ _ _ y = _
      rw [Function.update_of_ne (entry_of_outside hyt k), zeroPage, if_neg]
      unfold Outside at hyp
      omega
  · have hnext : nextTable s t k = (lower (s.mem (entryAddr t k)), s) := by
      simp only [nextTable, if_neg hv]
    rw [hnext]
    exact ⟨[], .refl root s⟩

private theorem setLeaf_uses (hT : Tree s.mem root) {i j : Fin 512} {t : Word}
    (hw : walk (child s.mem) root [j, i] = some t) (k : Fin 512) (e : Word) :
    Uses root s { s with mem := Function.update s.mem (entryAddr t k) e } [] := by
  have ht : Aligned t := hT.aligned t ⟨_, by simp, hw⟩
  -- the inner tables, which the walks go through, are other pages than the last-level one
  have hwalk : ∀ σ : List (Fin 512), σ.length ≤ 2 →
      walk (child (Function.update s.mem (entryAddr t k) e)) root σ = walk (child s.mem) root σ := by
    refine walk_congr fun σ hσ a ha l => ?_
    have hne : entryAddr a l ≠ entryAddr t k := by
      intro he
      have hat := (entryAddr_inj (hT.aligned a ⟨σ, by omega, ha⟩) ht he).1
      have hlen := hT.noAlias σ _ (by omega) (by simp) a ha (hat ▸ hw)
      rw [hlen] at hσ
      simp at hσ
    simp only [child, Function.update_of_ne hne]
  have hin (a : Word) : InTree (child (Function.update s.mem (entryAddr t k) e)) root 2 a ↔
      InTree (child s.mem) root 2 a :=
    exists_congr fun σ => and_congr_right fun hσ => by rw [hwalk σ hσ]
  refine ⟨rfl, fun a => ?_, fun y hy => ?_⟩
  · rw [hin]
    simp
  · have hyt := hy t ((hin t).2 ⟨_, by simp, hw⟩)
    exact Function.update_of_ne (entry_of_outside hyt k) _ _

/-! The supply is not used up by calls that leave a page in it. -/

theorem pageZalloc_suffix (s : Machine) : (pageZalloc s).2.pages <:+ s.pages := by
  obtain ⟨mem, pages⟩ := s
  cases pages with
  | nil => exact List.suffix_refl []
  | cons p ps => exact List.suffix_cons p ps

theorem nextTable_suffix (s : Machine) (t : Word) (k : Fin 512) :
    (nextTable s t k).2.pages <:+ s.pages := by
  unfold nextTable
  by_cases hv : s.mem (entryAddr t k) &&& PTEB_VALID = 0#64
  · simp only [if_pos hv]
    exact pageZalloc_suffix s
  · simp only [if_neg hv]
    exact List.suffix_refl _

theorem mmuSet_suffix (s : Machine) (pt vaddr paddr bits : Word) :
    (mmuSet s pt vaddr paddr bits).pages <:+ s.pages :=
  (nextTable_suffix _ _ _).trans (nextTable_suffix s pt _)

theorem mmuMap_suffix (s : Machine) (pt vaddr paddr bits : Word) :
    (mmuMap s pt vaddr paddr bits).2.pages <:+ s.pages := by
  unfold mmuMap
  split_ifs
  · exact List.suffix_refl _
  · exact mmuSet_suffix ..

theorem mapPages_suffix (pt start_vaddr start_paddr bits : Word) (n i : ℕ) (s : Machine) :
    (mapPages pt start_vaddr start_paddr bits n i s).pages <:+ s.pages := by
  induction n generalizing i s with
  | zero => exact List.suffix_refl _
  | succ n ih =>
    unfold mapPages
    simp only
    split_ifs
    · exact mmuMap_suffix ..
    · exact (ih _ _).trans (mmuMap_suffix ..)

/-! A call takes two pages at most for each page it maps. -/

theorem pageZalloc_length (s : Machine) : s.pages.length ≤ (pageZalloc s).2.pages.length + 1 := by
  obtain ⟨mem, pages⟩ := s
  cases pages with
  | nil => exact Nat.zero_le _
  | cons p ps => exact Nat.le_refl _

theorem nextTable_length (s : Machine) (t : Word) (k : Fin 512) :
    s.pages.length ≤ (nextTable s t k).2.pages.length + 1 := by
  unfold nextTable
  by_cases hv : s.mem (entryAddr t k) &&& PTEB_VALID = 0#64
  · simp only [if_pos hv]
    exact pageZalloc_length s
  · simp only [if_neg hv]
    exact Nat.le_succ _

theorem mmuMap_length (s : Machine) (pt vaddr paddr bits : Word) :
    s.pages.length ≤ (mmuMap s pt vaddr paddr bits).2.pages.length + 2 := by
  unfold mmuMap
  split_ifs
  · exact Nat.le_add_right _ 2
  · have h1 := nextTable_length s pt (vpn vaddr 2)
    have h2 := nextTable_length (nextTable s pt (vpn vaddr 2)).2 (nextTable s pt (vpn vaddr 2)).1
      (vpn vaddr 1)
    exact h1.trans (Nat.add_le_add_right h2 1)

theorem mapPages_length (pt start_vaddr start_paddr bits : Word) (n i : ℕ) (s : Machine) :
    s.pages.length ≤ (mapPages pt start_vaddr start_paddr bits n i s).pages.length + 2 * n := by
  induction n generalizing i s with
  | zero => exact Nat.le_refl _
  | succ n ih =>
    unfold mapPages
    simp only
    have hmap := mmuMap_length s pt (start_vaddr + BitVec.ofNat 64 (PAGE_SIZE * i))
      (start_paddr + BitVec.ofNat 64 (PAGE_SIZE * i)) bits
    split_ifs
    · omega
    · have hrest := ih (i + 1) (mmuMap s pt (start_vaddr + BitVec.ofNat 64 (PAGE_SIZE * i))
        (start_paddr + BitVec.ofNat 64 (PAGE_SIZE * i)) bits).2
      omega

theorem pages_left {xs ys : List Word} (h : xs <:+ ys) (hx : xs ≠ []) : 1 ≤ ys.length :=
  (List.length_pos_of_ne_nil hx).trans_le h.length_le

theorem nextTable_child {t u : Word} {k : Fin 512} (h : child s.mem t k = some u) :
    nextTable s t k = (u, s) := by
  unfold child at h
  by_cases hv : s.mem (entryAddr t k) &&& PTEB_VALID = 0#64
  · simp [hv] at h
  · simp only [if_neg hv, Option.some.injEq] at h
    simp only [nextTable, if_neg hv, h]

/-- Every call of `page_zalloc` that `mmu_set` makes for this address returns a page. -/
structure Supplied (root vaddr : Word) (s : Machine) : Prop where
  first : child s.mem root (vpn vaddr 2) = none → s.pages ≠ []
  second : child (nextTable s root (vpn vaddr 2)).2.mem (nextTable s root (vpn vaddr 2)).1
    (vpn vaddr 1) = none → (nextTable s root (vpn vaddr 2)).2.pages ≠ []

/-- How many tables `mmu_set` has to create on the way to an address. -/
def missing (mem : ℕ → Word) (root vaddr : Word) : ℕ :=
  match child mem root (vpn vaddr 2) with
  | none => 2
  | some t =>
    match child mem t (vpn vaddr 1) with
    | none => 1
    | some _ => 0

theorem supplied_iff (hT : Tree s.mem root) (hf : FreshPages s.mem root s.pages) (vaddr : Word) :
    Supplied root vaddr s ↔ missing s.mem root vaddr ≤ s.pages.length := by
  unfold missing
  cases hc : child s.mem root (vpn vaddr 2) with
  | some t =>
    have hnext : nextTable s root (vpn vaddr 2) = (t, s) := nextTable_child hc
    have hsupplied : Supplied root vaddr s ↔
        (child s.mem t (vpn vaddr 1) = none → s.pages ≠ []) := by
      constructor
      · intro h
        have := h.second
        rwa [hnext] at this
      · intro h
        exact ⟨fun hnone => absurd (hc.symm.trans hnone) (Option.some_ne_none t), by rwa [hnext]⟩
    rw [hsupplied]
    dsimp only
    cases child s.mem t (vpn vaddr 1) with
    | none =>
      exact ⟨fun h => List.length_pos_of_ne_nil (h rfl), fun h _ => List.ne_nil_of_length_pos h⟩
    | some u => exact ⟨fun _ => Nat.zero_le _, fun _ h => absurd h (Option.some_ne_none u)⟩
  | none =>
    cases hps : s.pages with
    | nil =>
      constructor
      · intro h
        exact absurd hps (h.first hc)
      · intro h
        exact absurd h (Nat.not_succ_le_zero 1)
    | cons p ps =>
      have hp := hf.aligned p (by simp [hps])
      obtain ⟨hlink, -, -⟩ := nextTable_fresh hT (by simp) (walk_nil _ root) (vpn vaddr 2) hc hp
        (hf.fresh p (by simp [hps]))
      have hnext := nextTable_granted hc hps hp
      constructor
      · intro h
        have := h.second
        rw [hnext] at this
        exact Nat.succ_le_succ (List.length_pos_of_ne_nil (this (hlink.leaf (vpn vaddr 1))))
      · intro h
        refine ⟨fun _ => by simp [hps], fun _ => ?_⟩
        rw [hnext]
        exact List.ne_nil_of_length_pos (Nat.le_of_succ_le_succ h)

/-- One level of the walk where `page_zalloc` does not fail. -/
theorem nextTable_supplied (hT : Tree s.mem root) (hf : FreshPages s.mem root s.pages)
    {π : List (Fin 512)} {t : Word} (hπ : π.length < 2)
    (hw : walk (child s.mem) root π = some t) (k : Fin 512)
    (hs : child s.mem t k = none → s.pages ≠ []) :
    Tree (nextTable s t k).2.mem root ∧
    walk (child (nextTable s t k).2.mem) root (k :: π) = some (nextTable s t k).1 ∧
    (∀ v, leafEntry (nextTable s t k).2.mem root v = leafEntry s.mem root v) ∧
    FreshPages (nextTable s t k).2.mem root (nextTable s t k).2.pages ∧
    ∃ used, Uses root s (nextTable s t k).2 used := by
  cases hc : child s.mem t k with
  | none =>
    have hn : 1 ≤ s.pages.length := List.length_pos_of_ne_nil (hs hc)
    obtain ⟨hT', hw', hl, hf', -⟩ := nextTable_spec hT hf (n := 0) hn hπ hw k
    exact ⟨hT', hw', hl, hf', nextTable_uses hT hf hn hπ hw k⟩
  | some u =>
    rw [nextTable_child hc]
    exact ⟨hT, walk_cons_some hw hc, fun _ => rfl, hf, [], .refl root s⟩

/-- What one `mmu_set` does where `page_zalloc` does not fail. -/
theorem mmuSet_supplied (hT : Tree s.mem root) (hf : FreshPages s.mem root s.pages)
    (vaddr paddr bits : Word) (hs : Supplied root vaddr s) :
    Tree (mmuSet s root vaddr paddr bits).mem root ∧
    FreshPages (mmuSet s root vaddr paddr bits).mem root (mmuSet s root vaddr paddr bits).pages ∧
    (∀ v, leafEntry (mmuSet s root vaddr paddr bits).mem root v =
      if SamePage v vaddr then leafBits paddr bits else leafEntry s.mem root v) ∧
    ∃ used, Uses root s (mmuSet s root vaddr paddr bits) used := by
  obtain ⟨hT1, hw1, hl1, hf1, used1, hu1⟩ :=
    nextTable_supplied hT hf (by simp) (walk_nil _ root) (vpn vaddr 2) hs.first
  obtain ⟨hT2, hw2, hl2, hf2, used2, hu2⟩ :=
    nextTable_supplied hT1 hf1 (by simp) hw1 (vpn vaddr 1) hs.second
  obtain ⟨hT3, hf3, hl3⟩ := setLeaf_spec hT2 hf2 hw2 (vpn vaddr 0) (leafBits paddr bits)
  refine ⟨hT3, hf3, fun v => ?_, used1 ++ used2, ?_⟩
  · rw [show leafEntry (mmuSet s root vaddr paddr bits).mem root v = _ from hl3 v, hl2, hl1]
    simp only [samePage_iff]
  · have hu3 := (hu1.trans hu2).trans (setLeaf_uses hT2 hw2 (vpn vaddr 0) (leafBits paddr bits))
    rw [List.append_nil] at hu3
    exact hu3

/-- A supply that is not used up was never empty. -/
theorem supplied_of_left {vaddr paddr bits : Word}
    (hleft : (mmuSet s root vaddr paddr bits).pages ≠ []) : Supplied root vaddr s :=
  ⟨fun _ => List.ne_nil_of_length_pos (pages_left (mmuSet_suffix ..) hleft),
    fun _ => List.ne_nil_of_length_pos (pages_left (nextTable_suffix _ _ _) hleft)⟩

/-- Where the tables are there already, `mmu_set` takes no page. -/
theorem mmuSet_mapped (hT : Tree s.mem root) {vaddr : Word}
    (hv : leafEntry s.mem root vaddr ≠ 0#64) (paddr bits : Word) :
    Tree (mmuSet s root vaddr paddr bits).mem root ∧
    Uses root s (mmuSet s root vaddr paddr bits) [] ∧
    ∀ v, leafEntry (mmuSet s root vaddr paddr bits).mem root v =
      if SamePage v vaddr then leafBits paddr bits else leafEntry s.mem root v := by
  obtain ⟨t, hw⟩ : ∃ t, walk (child s.mem) root [vpn vaddr 1, vpn vaddr 2] = some t := by
    cases hw : walk (child s.mem) root [vpn vaddr 1, vpn vaddr 2] with
    | none => exact absurd (by rw [leafEntry, hw]; rfl) hv
    | some t => exact ⟨t, rfl⟩
  have hset : mmuSet s root vaddr paddr bits = { s with
      mem := Function.update s.mem (entryAddr t (vpn vaddr 0)) (leafBits paddr bits) } := by
    have hw' := hw
    rw [walk_cons, walk_cons, walk_nil, Option.bind_some] at hw'
    obtain ⟨u, hu, ht⟩ := Option.bind_eq_some_iff.1 hw'
    unfold mmuSet
    rw [nextTable_child hu]
    simp only
    rw [nextTable_child ht]
  rw [hset]
  have hfresh : FreshPages s.mem root [] := ⟨List.nodup_nil, by simp, by simp⟩
  obtain ⟨htree, -, hleaf⟩ := setLeaf_spec (s := ⟨s.mem, []⟩) hT hfresh hw (vpn vaddr 0)
    (leafBits paddr bits)
  refine ⟨htree, setLeaf_uses hT hw _ _, fun v => ?_⟩
  rw [hleaf v]
  simp only [samePage_iff]

/-- What a series of `mmu_map` calls for `n` pages does. -/
structure Maps (root start_vaddr start_paddr bits : Word) (i n : ℕ) (s s' : Machine) : Prop where
  tree : Tree s'.mem root
  fresh : FreshPages s'.mem root s'.pages
  uses : ∃ used, Uses root s s' used
  leaf (v : Word) :
    (∃ j, i ≤ j ∧ j < i + n ∧ SamePage v (start_vaddr + BitVec.ofNat 64 (PAGE_SIZE * j)) ∧
      leafEntry s'.mem root v = leafBits (start_paddr + BitVec.ofNat 64 (PAGE_SIZE * j))
        (bits ||| PTEB_VALID)) ∨
    ((∀ j, i ≤ j → j < i + n → ¬SamePage v (start_vaddr + BitVec.ofNat 64 (PAGE_SIZE * j))) ∧
      leafEntry s'.mem root v = leafEntry s.mem root v)

/-- No call of `page_zalloc` in the loop of `mmu_map_multiple` fails. -/
def RangeSupplied (root start_vaddr start_paddr bits : Word) : ℕ → ℕ → Machine → Prop
  | 0, _, _ => True
  | n + 1, i, s =>
    let off := BitVec.ofNat 64 (PAGE_SIZE * i)
    Supplied root (start_vaddr + off) s ∧
      RangeSupplied root start_vaddr start_paddr bits n (i + 1)
        (mmuMap s root (start_vaddr + off) (start_paddr + off) bits).2

theorem mmuMap_set {vaddr paddr bits : Word} (hrwx : bits &&& 0xe#64 ≠ 0#64) :
    mmuMap s root vaddr paddr bits = (0, mmuSet s root vaddr paddr (bits ||| PTEB_VALID)) :=
  if_neg hrwx

theorem mapPages_succ {start_vaddr start_paddr bits : Word} (hrwx : bits &&& 0xe#64 ≠ 0#64)
    (n i : ℕ) : mapPages root start_vaddr start_paddr bits (n + 1) i s =
      mapPages root start_vaddr start_paddr bits n (i + 1)
        (mmuSet s root (start_vaddr + BitVec.ofNat 64 (PAGE_SIZE * i))
          (start_paddr + BitVec.ofNat 64 (PAGE_SIZE * i)) (bits ||| PTEB_VALID)) := by
  rw [mapPages, mmuMap_set hrwx]
  rfl

theorem rangeSupplied_of_left {start_vaddr start_paddr bits : Word}
    (hrwx : bits &&& 0xe#64 ≠ 0#64) {n i : ℕ}
    (hleft : (mapPages root start_vaddr start_paddr bits n i s).pages ≠ []) :
    RangeSupplied root start_vaddr start_paddr bits n i s := by
  induction n generalizing i s with
  | zero => trivial
  | succ n ih =>
    rw [mapPages_succ hrwx] at hleft
    refine ⟨?_, ?_⟩
    · exact supplied_of_left (List.ne_nil_of_length_pos (pages_left (mapPages_suffix ..) hleft))
    · rw [mmuMap_set hrwx]
      exact ih hleft

theorem mapPages_supplied {start_vaddr start_paddr bits : Word} (hrwx : bits &&& 0xe#64 ≠ 0#64)
    {n i : ℕ} (hT : Tree s.mem root) (hf : FreshPages s.mem root s.pages)
    (hs : RangeSupplied root start_vaddr start_paddr bits n i s) :
    Maps root start_vaddr start_paddr bits i n s
      (mapPages root start_vaddr start_paddr bits n i s) := by
  induction n generalizing i s with
  | zero =>
    refine ⟨hT, hf, ⟨[], .refl root s⟩, fun v => Or.inr ⟨fun j hij hj => ?_, rfl⟩⟩
    omega
  | succ n ih =>
    obtain ⟨hfirst, hrest⟩ := hs
    rw [mmuMap_set hrwx] at hrest
    rw [mapPages_succ hrwx]
    obtain ⟨hT1, hf1, hl1, used1, hu1⟩ := mmuSet_supplied hT hf
      (start_vaddr + BitVec.ofNat 64 (PAGE_SIZE * i)) (start_paddr + BitVec.ofNat 64 (PAGE_SIZE * i))
      (bits ||| PTEB_VALID) hfirst
    have hmaps := ih (i := i + 1) hT1 hf1 hrest
    obtain ⟨used2, hu2⟩ := hmaps.uses
    refine ⟨hmaps.tree, hmaps.fresh, ⟨used1 ++ used2, hu1.trans hu2⟩, fun v => ?_⟩
    rcases hmaps.leaf v with ⟨j, hij, hj, hsame, hleaf⟩ | ⟨hnone, hleaf⟩
    · exact Or.inl ⟨j, by omega, by omega, hsame, hleaf⟩
    · rw [hl1] at hleaf
      by_cases hv : SamePage v (start_vaddr + BitVec.ofNat 64 (PAGE_SIZE * i))
      · rw [if_pos hv] at hleaf
        exact Or.inl ⟨i, le_refl i, by omega, hv, hleaf⟩
      · rw [if_neg hv] at hleaf
        refine Or.inr ⟨fun j hij hj => ?_, hleaf⟩
        rcases Nat.eq_or_lt_of_le hij with rfl | hlt
        · exact hv
        · exact hnone j hlt (by omega)

theorem mapPages_spec {start_vaddr start_paddr bits : Word} (hrwx : bits &&& 0xe#64 ≠ 0#64)
    {n i : ℕ} (hT : Tree s.mem root) (hf : FreshPages s.mem root s.pages)
    (hleft : (mapPages root start_vaddr start_paddr bits n i s).pages ≠ []) :
    Maps root start_vaddr start_paddr bits i n s
      (mapPages root start_vaddr start_paddr bits n i s) :=
  mapPages_supplied hrwx hT hf (rangeSupplied_of_left hrwx hleft)

theorem leafEntry_samePage {mem : ℕ → Word} {v w : Word} (h : SamePage v w) :
    leafEntry mem root v = leafEntry mem root w := by
  obtain ⟨h2, h1, h0⟩ := (samePage_iff v w).1 h
  unfold leafEntry
  rw [h2, h1, h0]

/-- Memories with the same tables: the entries agree in every page of the tree. -/
theorem Tree.congr {mem mem' : ℕ → Word} (hT : Tree mem root)
    (h : ∀ a, InTree (child mem) root 2 a → ∀ i, mem' (entryAddr a i) = mem (entryAddr a i)) :
    Tree mem' root ∧ (∀ a, InTree (child mem') root 2 a ↔ InTree (child mem) root 2 a) ∧
      ∀ v, leafEntry mem' root v = leafEntry mem root v := by
  have hchild (σ : List (Fin 512)) (hσ : σ.length < 2) (a : Word)
      (ha : walk (child mem) root σ = some a) (i : Fin 512) : child mem' a i = child mem a i := by
    simp only [child, h a ⟨σ, by omega, ha⟩ i]
  have hwalk := walk_congr hchild
  have hin (a : Word) : InTree (child mem') root 2 a ↔ InTree (child mem) root 2 a :=
    exists_congr fun σ => and_congr_right fun hσ => by rw [hwalk σ hσ]
  refine ⟨⟨fun a ha => hT.aligned a ((hin a).1 ha), ?_, ?_⟩, hin, fun v => ?_⟩
  · intro σ τ hσ hτ a h1 h2
    exact hT.noAlias σ τ hσ hτ a (hwalk σ hσ ▸ h1) (hwalk τ hτ ▸ h2)
  · intro σ hσ a ha i hc
    rw [hwalk σ (by omega)] at ha
    rw [hchild σ hσ a ha i] at hc
    rw [h a ⟨σ, by omega, ha⟩ i]
    exact hT.branch σ hσ a ha i hc
  · unfold leafEntry
    rw [hwalk _ (by simp)]
    cases hu : walk (child mem) root [vpn v 1, vpn v 2] with
    | none => rfl
    | some u => exact h u ⟨_, by simp, hu⟩ _

end Writes

/-! ## Runs -/

inductive Op where
  | mmu_map (vaddr paddr bits : Word)
  | mmu_unmap (vaddr : Word)
  | mmu_map_multiple (start_vaddr start_paddr : Word) (bytes : ℕ) (bits : Word)

/-- The calls to `page_zalloc` that an operation may make. -/
def Op.demand : Op → ℕ
  | .mmu_map .. => 2
  | .mmu_unmap _ => 2
  | .mmu_map_multiple _ _ bytes _ => 2 * ((bytes + PAGE_SIZE - 1) / PAGE_SIZE)

/-- Physical addresses below `2 ^ 56`, permission bits in the low ten. -/
def Op.InRange : Op → Prop
  | .mmu_map _ paddr bits => paddr.toNat < 2 ^ 56 ∧ bits.toNat < 2 ^ 10
  | .mmu_unmap _ => True
  | .mmu_map_multiple _ start_paddr bytes bits =>
    start_paddr.toNat + bytes ≤ 2 ^ 56 ∧ bits.toNat < 2 ^ 10

def perform (root : Word) (s : Machine) : Op → Machine
  | .mmu_map vaddr paddr bits => (mmuMap s root vaddr paddr bits).2
  | .mmu_unmap vaddr => mmuUnmap s root vaddr
  | .mmu_map_multiple start_vaddr start_paddr bytes bits =>
    mmuMapMultiple s root start_vaddr start_paddr bytes bits

/-- An operation runs with enough fresh pages; which pages these are is arbitrary. -/
inductive Step (root : Word) : (ℕ → Word) → Op → (ℕ → Word) → Prop where
  | op (mem : ℕ → Word) (pages : List Word) (o : Op) (hf : FreshPages mem root pages)
      (hn : o.demand ≤ pages.length) (hr : o.InRange) :
      Step root mem o (perform root ⟨mem, pages⟩ o).mem

/-- Built by operations from a page-aligned root page of zeros. -/
def Built (root : Word) (mem : ℕ → Word) : Prop :=
  Aligned root ∧ ∃ mem₀ : ℕ → Word, (∀ i, mem₀ (entryAddr root i) = 0) ∧
    Execution (Step root) mem₀ mem

theorem zeroed_root_path {root : Word} {mem : ℕ → Word}
    (hz : ∀ i, mem (entryAddr root i) = 0) (σ : List (Fin 512)) (a : Word)
    (ha : walk (child mem) root σ = some a) : σ = [] ∧ a = root := by
  induction σ generalizing a with
  | nil => exact ⟨rfl, (Option.some.inj ha).symm⟩
  | cons i σ ih =>
    rw [walk_cons] at ha
    cases hw : walk (child mem) root σ with
    | none => rw [hw] at ha; cases ha
    | some b =>
      obtain ⟨-, rfl⟩ := ih b hw
      rw [hw, Option.bind_some, child_none (by rw [hz]; rfl)] at ha
      cases ha

theorem zeroed_root_tree {root : Word} {mem : ℕ → Word} (hr : Aligned root)
    (hz : ∀ i, mem (entryAddr root i) = 0) : Tree mem root := by
  refine ⟨?_, ?_, ?_⟩
  · rintro a ⟨σ, -, ha⟩
    exact (zeroed_root_path hz σ a ha).2 ▸ hr
  · intro σ τ _ _ a hσ hτ
    rw [(zeroed_root_path hz σ a hσ).1, (zeroed_root_path hz τ a hτ).1]
  · intro σ _ a ha i hc
    rw [(zeroed_root_path hz σ a ha).2] at hc
    exact absurd (child_none (by rw [hz]; rfl)) hc

theorem zeroed_root_fresh {root : Word} {mem : ℕ → Word} {pages : List Word}
    (hz : ∀ i, mem (entryAddr root i) = 0) (hnd : pages.Nodup) (hal : ∀ p ∈ pages, Aligned p)
    (hroot : root ∉ pages) : FreshPages mem root pages := by
  refine ⟨hnd, hal, ?_⟩
  rintro p hp ⟨σ, -, hw⟩
  exact hroot ((zeroed_root_path hz σ p hw).2 ▸ hp)

theorem step_preserves_tree {root : Word} {mem mem' : ℕ → Word} {o : Op} (hT : Tree mem root)
    (st : Step root mem o mem') : Tree mem' root := by
  obtain ⟨pages, o, hf, hn, -⟩ := st
  cases o with
  | mmu_map vaddr paddr bits => exact (mmuMap_keeps (s := ⟨mem, pages⟩) hT hf (n := 0) hn _ _ _).1
  | mmu_unmap vaddr => exact (mmuSet_spec (s := ⟨mem, pages⟩) hT hf (n := 0) hn _ _ _).1
  | mmu_map_multiple start_vaddr start_paddr bytes bits => exact mapPages_keeps hT hf hn

theorem built_tree {root : Word} {mem : ℕ → Word} (h : Built root mem) : Tree mem root := by
  obtain ⟨hr, mem₀, hz, hexec⟩ := h
  exact hexec.invariant (fun _ _ _ hT st => step_preserves_tree hT st) (zeroed_root_tree hr hz)

/-- Of every table a run builds: a new mapping or unmapping decides the translations of its
own page and leaves those of all other pages alone. -/
theorem translation_after_map {root : Word} {mem : ℕ → Word} (h : Built root mem)
    {pages : List Word} (hf : FreshPages mem root pages) (hn : 2 ≤ pages.length) :
    (∀ vaddr paddr bits : Word, paddr.toNat < 2 ^ 56 → bits.toNat < 2 ^ 10 →
      bits &&& 0xe#64 ≠ 0#64 →
      MapEffect mem (mmuMap ⟨mem, pages⟩ root vaddr paddr bits).2.mem root vaddr paddr) ∧
    ∀ vaddr : Word, UnmapEffect mem (mmuUnmap ⟨mem, pages⟩ root vaddr).mem root vaddr :=
  ⟨fun _ _ _ hp hb hrwx => mmuMap_effect (s := ⟨mem, pages⟩) (built_tree h) hf hn hp hb hrwx,
    fun vaddr => mmuUnmap_effect (s := ⟨mem, pages⟩) (built_tree h) hf hn vaddr⟩

/-- Mapping the first kernel heap page into an empty table. -/
theorem translation_after_map_heap_page :
    MapEffect (fun _ => 0)
      (mmuMap ⟨fun _ => 0, [0x80002000#64, 0x80003000#64]⟩ 0x80001000#64 0x120000000#64
        0x80004000#64 (PTEB_READ ||| PTEB_WRITE)).2.mem
      0x80001000#64 0x120000000#64 0x80004000#64 := by
  have hzero : ∀ i, (fun _ => 0 : ℕ → Word) (entryAddr 0x80001000#64 i) = 0 := fun _ => rfl
  have hbuilt : Built 0x80001000#64 (fun _ => 0) := ⟨by decide, fun _ => 0, hzero, .refl _⟩
  have hfresh : FreshPages (fun _ => 0) 0x80001000#64 [0x80002000#64, 0x80003000#64] :=
    zeroed_root_fresh hzero (by decide) (List.forall_iff_forall_mem.1 (by decide)) (by decide)
  exact (translation_after_map hbuilt hfresh (by decide)).1 _ _ _ (by decide) (by decide) (by decide)

end PageTable
