import DucreuOS.Library.Scan
import DucreuOS.Minix3

/-! # The walk over the zones of a file

`minix3_zone_walker` runs an index `i` over the file zones: seven direct pointers, then the slots
of the indirect, doubly indirect and triply indirect pointer blocks. A zero pointer skips its
whole range. The walk leaves by `goto freeall` at the first slot it reads with `i >= zone_index`. -/
namespace Minix3

open ByteMemory Scan

def MX3_IDZONE : Fin 10 := 7
def MX3_IIDZONE : Fin 10 := 8
def MX3_IIIDZONE : Fin 10 := 9

/-- Pointers per zone. -/
def ppz (bs : ℕ) : ℕ := bs / 4

/-- `minix3_get_file_max_zones` -/
def getFileMaxZones (bs : ℕ) : ℕ :=
  (7 + ppz bs + ppz bs * ppz bs + ppz bs * ppz bs * ppz bs) % 2 ^ 32

/-- The variables of the walk that outlive one pointer block. -/
@[ext] structure Walk where
  fs : Fs
  inode : Inode
  i : ℕ
  remaining : ℕ

/-- Why a walk ended: at `freeall` with a zone to return, or never. -/
inductive Stop
  | found (w : Walk) (return_zone : Word)
  | hung

section Walker

-- `set` is the pair `do_set_zone`, `set_zone_to`
variable (bs zone_index : ℕ) (set : Option Word)

/-- Past one slot: a mapped zone takes its part of the remaining size. -/
def Walk.pass (w : Walk) (zone : Word) : Walk :=
  { w with i := w.i + 1, remaining := if zone ≠ 0 then w.remaining - bs else w.remaining }

/-- `i += n` over a zero pointer. -/
def Walk.skip (w : Walk) (n : ℕ) : Walk := { w with i := w.i + n }

/-- An available zone, marked and written with zeroes. -/
def freshBlock (fs : Fs) : Except Stop (Fs × Word) :=
  match getAvailableZone bs fs with
  | none => .error .hung
  | some (fs, next_zone) =>
    .ok ({ fs with disk := setZoneToZero bs (setZoneOccupied bs fs.disk next_zone) next_zone },
      next_zone)

/-- One direct pointer. -/
def walkDirectSlot (w : Walk) : Except Stop Walk :=
  let slot := Fin.ofNat 10 w.i
  if zone_index ≤ w.i then
    match set with
    | none => .error (.found w (w.inode.zones slot))
    | some set_zone_to =>
      .error (.found { w with inode := w.inode.setZone slot set_zone_to } set_zone_to)
  else .ok (w.pass bs (w.inode.zones slot))

/-- `n` direct pointers, from slot `w.i` on. -/
def walkDirect : ℕ → Walk → Except Stop Walk
  | 0, w => .ok w
  | n + 1, w => do
    let w ← walkDirectSlot bs zone_index set w
    walkDirect n w

/-- Slot `j` of `zones`, the buffer of the block at `I_zone_baddr`. -/
def walkSlot (I_zone_baddr : ℕ) (zones : Mem) (j : ℕ) (w : Walk) : Except Stop Walk :=
  if zone_index ≤ w.i then
    match set with
    | none => .error (.found w (load32 zones (4 * j)))
    | some set_zone_to =>
      let zones := store32 zones (4 * j) set_zone_to
      .error (.found { w with fs := { w.fs with disk := blit w.fs.disk I_zone_baddr bs zones } }
        (load32 zones (4 * j)))
  else .ok (w.pass bs (load32 zones (4 * j)))

/-- `n` slots of the same buffer, from slot `j` on. -/
def walkZones (I_zone_baddr : ℕ) (zones : Mem) : ℕ → ℕ → Walk → Except Stop Walk
  | 0, _, w => .ok w
  | n + 1, j, w => do
    let w ← walkSlot bs zone_index set I_zone_baddr zones j w
    walkZones I_zone_baddr zones n (j + 1) w

/-- Read the block of zone pointers that `zone` names, if any, and walk it. -/
def walkBlock (zone : Word) (w : Walk) : Except Stop Walk :=
  if zone ≠ 0 then
    let I_zone_baddr := baddr32 bs zone
    walkZones bs zone_index set I_zone_baddr (window w.fs.disk I_zone_baddr) (ppz bs) 0 w
  else .ok (w.skip (ppz bs))

/-- `if(i == zone_index && do_set_zone)` on a pointer of the inode: a new block, also over an
existing one. -/
def freshPointer (slot : Fin 10) (w : Walk) : Except Stop Walk :=
  if w.i = zone_index ∧ set.isSome then do
    let (fs, next_zone) ← freshBlock bs w.fs
    .ok { w with fs, inode := w.inode.setZone slot next_zone }
  else .ok w

/-- The same on slot `k` of the buffer of a pointer block, which is written back. -/
def freshSlot (block_baddr k : ℕ) (buffer : Mem) (w : Walk) : Except Stop (Mem × Walk) :=
  if w.i = zone_index ∧ set.isSome then do
    let (fs, next_zone) ← freshBlock bs w.fs
    let buffer := store32 buffer (4 * k) next_zone
    .ok (buffer, { w with fs := { fs with disk := blit fs.disk block_baddr bs buffer } })
  else .ok (buffer, w)

/-- The loop over `Izones`, the buffer of the block at `II_zone_baddr`, from slot `k` on. -/
def walkIndirects (II_zone_baddr : ℕ) : ℕ → ℕ → Mem → Walk → Except Stop Walk
  | 0, _, _, w => .ok w
  | n + 1, k, Izones, w => do
    let (Izones, w) ← freshSlot bs zone_index set II_zone_baddr k Izones w
    let w ← walkBlock bs zone_index set (load32 Izones (4 * k)) w
    walkIndirects II_zone_baddr n (k + 1) Izones w

/-- Under a doubly indirect pointer `zone`. The block is read at `zones[MX3_IIDZONE]`, also when
`zone` is a slot of the triply indirect block. -/
def walkDoubly (zone : Word) (w : Walk) : Except Stop Walk :=
  if zone ≠ 0 then
    let II_zone_baddr := baddr32 bs (w.inode.zones MX3_IIDZONE)
    walkIndirects bs zone_index set II_zone_baddr (ppz bs) 0 (window w.fs.disk II_zone_baddr) w
  else .ok (w.skip (ppz bs * ppz bs))

/-- The loop over `IIzones`, the buffer of the block at `III_zone_baddr`, from slot `l` on. -/
def walkDoubles (III_zone_baddr : ℕ) : ℕ → ℕ → Mem → Walk → Except Stop Walk
  | 0, _, _, w => .ok w
  | n + 1, l, IIzones, w => do
    let (IIzones, w) ← freshSlot bs zone_index set III_zone_baddr l IIzones w
    let w ← walkDoubly bs zone_index set (load32 IIzones (4 * l)) w
    walkDoubles III_zone_baddr n (l + 1) IIzones w

def walkIndirect (w : Walk) : Except Stop Walk := do
  let w ← freshPointer bs zone_index set MX3_IDZONE w
  walkBlock bs zone_index set (w.inode.zones MX3_IDZONE) w

def walkDoublyIndirect (w : Walk) : Except Stop Walk := do
  let w ← freshPointer bs zone_index set MX3_IIDZONE w
  walkDoubly bs zone_index set (w.inode.zones MX3_IIDZONE) w

def walkTriplyIndirect (w : Walk) : Except Stop Walk := do
  let w ← freshPointer bs zone_index set MX3_IIIDZONE w
  if w.inode.zones MX3_IIIDZONE ≠ 0 then
    let III_zone_baddr := baddr32 bs (w.inode.zones MX3_IIIDZONE)
    walkDoubles bs zone_index set III_zone_baddr (ppz bs) 0 (window w.fs.disk III_zone_baddr) w
  else .ok (w.skip (ppz bs * ppz bs * ppz bs))

/-- The walk up to `freeall`. -/
def walkAll (w : Walk) : Except Stop Walk := do
  let w ← walkDirect bs zone_index set 7 w
  let w ← walkIndirect bs zone_index set w
  let w ← walkDoublyIndirect bs zone_index set w
  walkTriplyIndirect bs zone_index set w

end Walker

/-- `minix3_zone_walker`: the final variables and `return_zone`, which no assignment has reached
when it is `none`; no result if a search for a zone does not end. -/
def zoneWalker (bs : ℕ) (fs : Fs) (f_inode : Inode) (zone_index : ℕ) (set : Option Word) :
    Option (Walk × Option Word) :=
  match walkAll bs zone_index set ⟨fs, f_inode, 0, f_inode.size.toNat⟩ with
  | .ok w => some (w, none)
  | .error (.found w return_zone) => some (w, some return_zone)
  | .error .hung => none

/-! ## The pointer tree

The pointer blocks of a file are numbered by the range of zones below them: block 0 is the
indirect one, then come those below the doubly and those below the triply indirect block. -/

section Tree

variable (bs : ℕ) (disk : Mem) (inode : Inode)

/-- Slot `s` of pointer block `zone` at a given address; nothing below a zero pointer. -/
def blockSlot (addr : Word → ℕ) (zone : Word) (s : ℕ) : Word :=
  if zone = 0 then 0 else load32 disk (addr zone + 4 * s)

/-- The zone with file index `j`, from the pointers of the blocks. -/
def zoneUnder (addr : Word → ℕ) (block : ℕ → Word) (j : ℕ) : Word :=
  if j < 7 then inode.zones (Fin.ofNat 10 j)
  else blockSlot disk addr (block ((j - 7) / ppz bs)) ((j - 7) % ppz bs)

/-- No pointer above file zone `j` is zero. -/
def Present (block : ℕ → Word) (j : ℕ) : Prop :=
  7 ≤ j → block ((j - 7) / ppz bs) ≠ 0

/-- Pointer block `b` of the MINIX3 tree. -/
def pointerBlock (b : ℕ) : Word :=
  if b = 0 then inode.zones MX3_IDZONE
  else if b ≤ ppz bs then blockSlot disk (baddr bs) (inode.zones MX3_IIDZONE) (b - 1)
  else
    let m := b - 1 - ppz bs
    blockSlot disk (baddr bs)
      (blockSlot disk (baddr bs) (inode.zones MX3_IIIDZONE) (m / ppz bs)) (m % ppz bs)

/-- The zone that the MINIX3 pointer tree assigns to file index `j`. -/
def fileZone (j : ℕ) : Word := zoneUnder bs disk inode (baddr bs) (pointerBlock bs disk inode) j

/-- The places of the tree that hold a zone. -/
inductive Node
  | data (j : ℕ)
  | block (b : ℕ)
  | doubly
  | triply
  /-- slot `l` of the triply indirect block -/
  | second (l : ℕ)
  deriving DecidableEq

/-- The zone at a place, 0 where there is none. -/
def nodeZone : Node → Word
  | .data j => fileZone bs disk inode j
  | .block b => pointerBlock bs disk inode b
  | .doubly => inode.zones MX3_IIDZONE
  | .triply => inode.zones MX3_IIIDZONE
  | .second l => blockSlot disk (baddr bs) (inode.zones MX3_IIIDZONE) l

/-- Pointer block `b` as the walk finds it: addresses have 32 bits, and below a mapped slot of the
triply indirect block lies the doubly indirect one. -/
def walkedBlock (b : ℕ) : Word :=
  if b = 0 then inode.zones MX3_IDZONE
  else if b ≤ ppz bs then blockSlot disk (baddr32 bs) (inode.zones MX3_IIDZONE) (b - 1)
  else
    let m := b - 1 - ppz bs
    if blockSlot disk (baddr32 bs) (inode.zones MX3_IIIDZONE) (m / ppz bs) = 0 then 0
    else load32 disk (baddr32 bs (inode.zones MX3_IIDZONE) + 4 * (m % ppz bs))

def walkedZone (j : ℕ) : Word :=
  zoneUnder bs disk inode (baddr32 bs) (walkedBlock bs disk inode) j

end Tree

/-- The first file index below pointer block `b`. -/
def blockStart (bs b : ℕ) : ℕ := 7 + b * ppz bs

/-- The number of pointer blocks. -/
def blocks (bs : ℕ) : ℕ := 1 + ppz bs + ppz bs * ppz bs

/-- The places that a tree of this block size has. -/
def Node.In (bs : ℕ) : Node → Prop
  | .data j => j < blockStart bs (blocks bs)
  | .block b => b < blocks bs
  | .second l => l < ppz bs
  | _ => True

/-- No zone is reached twice. -/
def DistinctZones (bs : ℕ) (disk : Mem) (inode : Inode) : Prop :=
  ∀ m n : Node, m.In bs → n.In bs → nodeZone bs disk inode m ≠ 0 →
    nodeZone bs disk inode m = nodeZone bs disk inode n → m = n

theorem blockStart_succ (bs b : ℕ) : blockStart bs (b + 1) = blockStart bs b + ppz bs := by
  unfold blockStart
  ring

theorem blockStart_mono (bs : ℕ) : Monotone (blockStart bs) := fun b c h => by
  unfold blockStart
  gcongr

theorem blockStart_lt {bs b c : ℕ} (hppz : 0 < ppz bs) (h : b < c) :
    blockStart bs b < blockStart bs c := by
  unfold blockStart
  gcongr

theorem blockStart_div {bs s : ℕ} (b : ℕ) (hs : s < ppz bs) :
    (blockStart bs b + s - 7) / ppz bs = b ∧ (blockStart bs b + s - 7) % ppz bs = s := by
  have hsub : blockStart bs b + s - 7 = s + b * ppz bs := by
    unfold blockStart
    omega
  rw [hsub]
  constructor
  · rw [Nat.add_mul_div_right _ _ (by omega), Nat.div_eq_of_lt hs, Nat.zero_add]
  · rw [Nat.add_mul_mod_self_right, Nat.mod_eq_of_lt hs]

section Lookup

variable {bs : ℕ} {disk : Mem} {inode : Inode} {addr : Word → ℕ} {block : ℕ → Word}

theorem zoneUnder_direct {j : ℕ} (hj : j < 7) :
    zoneUnder bs disk inode addr block j = inode.zones (Fin.ofNat 10 j) := by
  unfold zoneUnder
  rw [if_pos hj]

theorem zoneUnder_block (b : ℕ) {s : ℕ} (hs : s < ppz bs) :
    zoneUnder bs disk inode addr block (blockStart bs b + s) = blockSlot disk addr (block b) s := by
  obtain ⟨hdiv, hmod⟩ := blockStart_div b hs
  unfold zoneUnder
  rw [if_neg (by unfold blockStart; omega), hdiv, hmod]

theorem present_block (b : ℕ) {s : ℕ} (hs : s < ppz bs) :
    Present bs block (blockStart bs b + s) ↔ block b ≠ 0 := by
  obtain ⟨hdiv, -⟩ := blockStart_div b hs
  unfold Present
  rw [hdiv]
  exact ⟨fun h => h (by unfold blockStart; omega), fun h _ => h⟩

theorem zoneUnder_absent {j : ℕ} (h : ¬ Present bs block j) :
    zoneUnder bs disk inode addr block j = 0 := by
  unfold Present at h
  push Not at h
  unfold zoneUnder blockSlot
  rw [if_neg (by omega), if_pos h.2]

/-- The slots of one pointer block cover its range of file indices. -/
theorem exists_slot {b j : ℕ} (hj : blockStart bs b ≤ j) (hj' : j < blockStart bs (b + 1)) :
    ∃ s < ppz bs, j = blockStart bs b + s := by
  rw [blockStart_succ] at hj'
  exact ⟨j - blockStart bs b, by omega, by omega⟩

end Lookup

/-! ## What the walk passes and where it leaves -/

section Walked

variable (bs : ℕ) (fs : Fs) (inode : Inode)

/-- The remaining size in front of file index `i`. -/
def remainingAt (zone : ℕ → Word) (i : ℕ) : ℕ :=
  inode.size.toNat - bs * Nat.count (fun j => zone j ≠ 0) i

/-- The variables of an undisturbed walk that has come to index `i`. -/
def walkAt (i : ℕ) : Walk := ⟨fs, inode, i, remainingAt bs inode (walkedZone bs fs.disk inode) i⟩

/-- The walk for `target` leaves at `j` if it has a slot to read there. -/
def StopsAt (target j : ℕ) : Prop := target ≤ j ∧ Present bs (walkedBlock bs fs.disk inode) j

def found (j : ℕ) : Stop := .found (walkAt bs fs inode j) (walkedZone bs fs.disk inode j)

variable {bs fs inode} {target : ℕ} {set : Option Word}

@[simp] theorem walkAt_i (i : ℕ) : (walkAt bs fs inode i).i = i := rfl

theorem remainingAt_succ (zone : ℕ → Word) (i : ℕ) : remainingAt bs inode zone (i + 1)
    = if zone i ≠ 0 then remainingAt bs inode zone i - bs else remainingAt bs inode zone i := by
  unfold remainingAt
  simp only [Nat.count_succ]
  split
  · rw [Nat.mul_add, Nat.mul_one, Nat.sub_sub]
  · rfl

theorem walkAt_pass (i : ℕ) :
    (walkAt bs fs inode i).pass bs (walkedZone bs fs.disk inode i) = walkAt bs fs inode (i + 1) := by
  simp only [walkAt, Walk.pass, remainingAt_succ]

theorem remainingAt_quiet {zone : ℕ → Word} {a b : ℕ} (hab : a ≤ b)
    (h : ∀ j, a ≤ j → j < b → zone j = 0) :
    remainingAt bs inode zone b = remainingAt bs inode zone a := by
  obtain ⟨n, rfl⟩ := Nat.exists_eq_add_of_le hab
  have hcount : Nat.count (fun k => zone (a + k) ≠ 0) n = 0 := by
    rw [Nat.count_iff_forall_not]
    intro k hk
    simpa using h (a + k) (by omega) (by omega)
  unfold remainingAt
  rw [Nat.count_add, hcount, Nat.add_zero]

theorem walkAt_skip {i n : ℕ} (h : ∀ j, i ≤ j → j < i + n → walkedZone bs fs.disk inode j = 0) :
    (walkAt bs fs inode i).skip n = walkAt bs fs inode (i + n) := by
  unfold walkAt Walk.skip
  rw [remainingAt_quiet (Nat.le_add_right i n) h]

/-- A lookup may stop anywhere; a walk that sets a zone is followed up to its target. -/
def Undisturbed (target : ℕ) (set : Option Word) (b : ℕ) : Prop := set = none ∨ b ≤ target

theorem Undisturbed.mono {b c : ℕ} (hu : Undisturbed target set c) (h : b ≤ c) :
    Undisturbed target set b :=
  hu.imp_right h.trans

theorem freshSlot_undisturbed {i b : ℕ} (hu : Undisturbed target set b) (hi : i < b)
    (block_baddr k : ℕ) (buffer : Mem) :
    freshSlot bs target set block_baddr k buffer (walkAt bs fs inode i)
      = .ok (buffer, walkAt bs fs inode i) := by
  unfold freshSlot
  refine if_neg ?_
  rw [walkAt_i]
  rintro ⟨hit, hset⟩
  rcases hu with rfl | hb
  · cases hset
  · omega

theorem freshPointer_undisturbed {i b : ℕ} (hu : Undisturbed target set b) (hi : i < b)
    (slot : Fin 10) :
    freshPointer bs target set slot (walkAt bs fs inode i) = .ok (walkAt bs fs inode i) := by
  unfold freshPointer
  refine if_neg ?_
  rw [walkAt_i]
  rintro ⟨hit, hset⟩
  rcases hu with rfl | hb
  · cases hset
  · omega

/-- The range `[a, b)` of file indices, walked by `f` towards `target`. -/
abbrev Covers (bs : ℕ) (fs : Fs) (inode : Inode) (target : ℕ) (f : Walk → Except Stop Walk)
    (a b : ℕ) : Prop :=
  Scans (walkAt bs fs inode) (found bs fs inode) (StopsAt bs fs inode target) f a b

theorem covers_walkSlot {b j : ℕ} (hu : Undisturbed target set (blockStart bs (b + 1)))
    (hb : walkedBlock bs fs.disk inode b ≠ 0) (hj : j < ppz bs) :
    let I_zone_baddr := baddr32 bs (walkedBlock bs fs.disk inode b)
    Covers bs fs inode target (walkSlot bs target set I_zone_baddr (window fs.disk I_zone_baddr) j)
      (blockStart bs b + j) (blockStart bs b + j + 1) := by
  intro I_zone_baddr
  have hslot : load32 (window fs.disk I_zone_baddr) (4 * j)
      = walkedZone bs fs.disk inode (blockStart bs b + j) := by
    unfold walkedZone
    rw [zoneUnder_block b hj, blockSlot, if_neg hb, load32_window]
  refine Scans.single (fun hstop => ?_) fun hpass => ?_
  · have ht : target ≤ blockStart bs b + j := hstop.1
    have hset : set = none := by
      refine hu.resolve_right fun h => ?_
      rw [blockStart_succ] at h
      omega
    subst hset
    unfold walkSlot
    rw [walkAt_i, if_pos ht, hslot]
    rfl
  · have ht : ¬ target ≤ blockStart bs b + j := fun h => hpass ⟨h, (present_block b hj).mpr hb⟩
    unfold walkSlot
    rw [walkAt_i, if_neg ht, hslot, walkAt_pass]

theorem covers_walkZones {b : ℕ} (hu : Undisturbed target set (blockStart bs (b + 1)))
    (hb : walkedBlock bs fs.disk inode b ≠ 0) (n j : ℕ) (hn : n + j = ppz bs) :
    let I_zone_baddr := baddr32 bs (walkedBlock bs fs.disk inode b)
    Covers bs fs inode target
      (walkZones bs target set I_zone_baddr (window fs.disk I_zone_baddr) n j)
      (blockStart bs b + j) (blockStart bs (b + 1)) := by
  intro I_zone_baddr
  induction n generalizing j with
  | zero =>
    rw [blockStart_succ, show ppz bs = j by omega]
    exact Scans.nil rfl
  | succ n ih =>
    have hend : blockStart bs b + j + 1 ≤ blockStart bs (b + 1) := by
      rw [blockStart_succ]
      omega
    exact Scans.bind (by omega) hend (covers_walkSlot hu hb (by omega)) (ih (j + 1) (by omega))

theorem covers_walkBlock {b : ℕ} (hu : Undisturbed target set (blockStart bs (b + 1))) :
    Covers bs fs inode target (walkBlock bs target set (walkedBlock bs fs.disk inode b))
      (blockStart bs b) (blockStart bs (b + 1)) := by
  by_cases hb : walkedBlock bs fs.disk inode b = 0
  · have habsent : ∀ j, blockStart bs b ≤ j → j < blockStart bs (b + 1) →
        ¬ Present bs (walkedBlock bs fs.disk inode) j := by
      intro j hj hj'
      obtain ⟨s, hs, rfl⟩ := exists_slot hj hj'
      exact fun h => (present_block b hs).mp h hb
    refine Scans.quiet ?_ fun j hj hj' h => habsent j hj hj' h.2
    unfold walkBlock
    rw [if_neg (not_not.mpr hb), blockStart_succ, walkAt_skip]
    intro j hj hj'
    rw [← blockStart_succ] at hj'
    exact zoneUnder_absent (habsent j hj hj')
  · refine (covers_walkZones hu hb (ppz bs) 0 rfl).congr ?_
    unfold walkBlock
    rw [if_pos hb]
    rfl

/-- A run of `ppz` pointer blocks from number `c` on, whose pointers lie in one buffer. -/
theorem covers_walkIndirects {c II_zone_baddr : ℕ}
    (hu : Undisturbed target set (blockStart bs (c + ppz bs)))
    (hblock : ∀ k < ppz bs,
      load32 fs.disk (II_zone_baddr + 4 * k) = walkedBlock bs fs.disk inode (c + k))
    (n k : ℕ) (hn : n + k = ppz bs) :
    Covers bs fs inode target
      (walkIndirects bs target set II_zone_baddr n k (window fs.disk II_zone_baddr))
      (blockStart bs (c + k)) (blockStart bs (c + ppz bs)) := by
  induction n generalizing k with
  | zero =>
    rw [show k = ppz bs by omega]
    exact Scans.nil rfl
  | succ n ih =>
    have hk : k < ppz bs := by omega
    have hstart : blockStart bs (c + k) < blockStart bs (c + k + 1) :=
      blockStart_lt (by omega) (by omega)
    have hend : blockStart bs (c + k + 1) ≤ blockStart bs (c + ppz bs) :=
      blockStart_mono bs (by omega)
    have hub : Undisturbed target set (blockStart bs (c + k + 1)) := hu.mono hend
    refine (Scans.bind hstart.le hend (covers_walkBlock hub)
      (ih (k + 1) (by omega))).congr ?_
    rw [walkIndirects, freshSlot_undisturbed hub hstart]
    change walkBlock bs target set (load32 (window fs.disk II_zone_baddr) (4 * k)) _ >>= _ = _
    rw [load32_window, hblock k hk]

/-- The blocks below a doubly indirect pointer, found where the walk reads them. -/
theorem covers_walkDoubly {c : ℕ} {zone : Word}
    (hu : Undisturbed target set (blockStart bs (c + ppz bs)))
    (hblock : ∀ k < ppz bs, walkedBlock bs fs.disk inode (c + k)
      = if zone = 0 then 0
        else load32 fs.disk (baddr32 bs (inode.zones MX3_IIDZONE) + 4 * k)) :
    Covers bs fs inode target (walkDoubly bs target set zone) (blockStart bs c)
      (blockStart bs (c + ppz bs)) := by
  by_cases hz : zone = 0
  · have hend : blockStart bs (c + ppz bs) = blockStart bs c + ppz bs * ppz bs := by
      unfold blockStart
      ring
    have habsent : ∀ j, blockStart bs c ≤ j → j < blockStart bs c + ppz bs * ppz bs →
        ¬ Present bs (walkedBlock bs fs.disk inode) j := by
      intro j hj hj' hpresent
      have hseven : 7 ≤ blockStart bs c := Nat.le_add_right 7 _
      have hsq : 0 < ppz bs * ppz bs := by omega
      have hppz : 0 < ppz bs := Nat.pos_of_mul_pos_left hsq
      have hdiv : (j - 7) / ppz bs < c + ppz bs := by
        rw [Nat.div_lt_iff_lt_mul hppz]
        unfold blockStart at hj hj'
        rw [Nat.add_mul]
        omega
      have hdiv' : c ≤ (j - 7) / ppz bs := by
        rw [Nat.le_div_iff_mul_le hppz]
        unfold blockStart at hj
        omega
      refine hpresent (by omega) ?_
      rw [show (j - 7) / ppz bs = c + ((j - 7) / ppz bs - c) by omega, hblock _ (by omega),
        if_pos hz]
    rw [hend]
    refine Scans.quiet ?_ fun j hj hj' h => habsent j hj hj' h.2
    unfold walkDoubly
    rw [if_neg (not_not.mpr hz), walkAt_skip]
    exact fun j hj hj' => zoneUnder_absent (habsent j hj hj')
  · have hbuffer : ∀ k < ppz bs, load32 fs.disk (baddr32 bs (inode.zones MX3_IIDZONE) + 4 * k)
        = walkedBlock bs fs.disk inode (c + k) := fun k hk => by rw [hblock k hk, if_neg hz]
    refine (covers_walkIndirects hu hbuffer (ppz bs) 0 rfl).congr ?_
    unfold walkDoubly
    rw [if_pos hz]
    rfl

theorem walkedBlock_doubly {k : ℕ} (hk : k < ppz bs) :
    walkedBlock bs fs.disk inode (1 + k)
      = blockSlot fs.disk (baddr32 bs) (inode.zones MX3_IIDZONE) k := by
  unfold walkedBlock
  rw [if_neg (by omega), if_pos (by omega), Nat.add_sub_cancel_left]

theorem walkedBlock_triply (l : ℕ) {k : ℕ} (hk : k < ppz bs) :
    walkedBlock bs fs.disk inode (1 + ppz bs + l * ppz bs + k)
      = if blockSlot fs.disk (baddr32 bs) (inode.zones MX3_IIIDZONE) l = 0 then 0
        else load32 fs.disk (baddr32 bs (inode.zones MX3_IIDZONE) + 4 * k) := by
  have hm : 1 + ppz bs + l * ppz bs + k - 1 - ppz bs = k + l * ppz bs := by omega
  unfold walkedBlock
  rw [if_neg (by omega), if_neg (by omega), hm]
  dsimp only
  rw [Nat.add_mul_div_right _ _ (by omega), Nat.div_eq_of_lt hk, Nat.zero_add,
    Nat.add_mul_mod_self_right, Nat.mod_eq_of_lt hk]

theorem covers_walkDoubles (hu : Undisturbed target set (blockStart bs (blocks bs)))
    (hz : inode.zones MX3_IIIDZONE ≠ 0) (n l : ℕ) (hn : n + l = ppz bs) :
    let III_zone_baddr := baddr32 bs (inode.zones MX3_IIIDZONE)
    Covers bs fs inode target
      (walkDoubles bs target set III_zone_baddr n l (window fs.disk III_zone_baddr))
      (blockStart bs (1 + ppz bs + l * ppz bs)) (blockStart bs (blocks bs)) := by
  intro III_zone_baddr
  induction n generalizing l with
  | zero =>
    rw [show l = ppz bs by omega]
    exact Scans.nil rfl
  | succ n ih =>
    have hnext : 1 + ppz bs + l * ppz bs + ppz bs = 1 + ppz bs + (l + 1) * ppz bs := by ring
    have hle : 1 + ppz bs + (l + 1) * ppz bs ≤ blocks bs := by
      unfold blocks
      gcongr
      omega
    have hend : blockStart bs (1 + ppz bs + (l + 1) * ppz bs) ≤ blockStart bs (blocks bs) :=
      blockStart_mono bs hle
    have hub : Undisturbed target set (blockStart bs (1 + ppz bs + (l + 1) * ppz bs)) :=
      hu.mono hend
    have hstart : blockStart bs (1 + ppz bs + l * ppz bs)
        < blockStart bs (1 + ppz bs + (l + 1) * ppz bs) := blockStart_lt (by omega) (by omega)
    have hslot : load32 (window fs.disk III_zone_baddr) (4 * l)
        = blockSlot fs.disk (baddr32 bs) (inode.zones MX3_IIIDZONE) l := by
      rw [load32_window, blockSlot, if_neg hz]
    have hdoubly : Covers bs fs inode target
        (walkDoubly bs target set (load32 (window fs.disk III_zone_baddr) (4 * l)))
        (blockStart bs (1 + ppz bs + l * ppz bs))
        (blockStart bs (1 + ppz bs + (l + 1) * ppz bs)) := by
      rw [hslot, ← hnext]
      exact covers_walkDoubly (hnext ▸ hub) fun k hk => walkedBlock_triply l hk
    refine (Scans.bind hstart.le hend hdoubly (ih (l + 1) (by omega))).congr ?_
    rw [walkDoubles, freshSlot_undisturbed hub hstart]
    rfl

theorem covers_walkIndirect (hu : Undisturbed target set (blockStart bs 1)) (hppz : 0 < ppz bs) :
    Covers bs fs inode target (walkIndirect bs target set) (blockStart bs 0) (blockStart bs 1) := by
  have hlt : blockStart bs 0 < blockStart bs 1 := blockStart_lt hppz (by omega)
  refine (covers_walkBlock hu).congr ?_
  unfold walkIndirect
  rw [freshPointer_undisturbed hu hlt]
  rfl

theorem covers_walkDoublyIndirect (hu : Undisturbed target set (blockStart bs (1 + ppz bs)))
    (hppz : 0 < ppz bs) :
    Covers bs fs inode target (walkDoublyIndirect bs target set) (blockStart bs 1)
      (blockStart bs (1 + ppz bs)) := by
  have hlt : blockStart bs 1 < blockStart bs (1 + ppz bs) := blockStart_lt hppz (by omega)
  refine (covers_walkDoubly hu fun k hk => walkedBlock_doubly hk).congr ?_
  unfold walkDoublyIndirect
  rw [freshPointer_undisturbed hu hlt]
  rfl

theorem covers_walkTriplyIndirect (hu : Undisturbed target set (blockStart bs (blocks bs)))
    (hppz : 0 < ppz bs) :
    Covers bs fs inode target (walkTriplyIndirect bs target set) (blockStart bs (1 + ppz bs))
      (blockStart bs (blocks bs)) := by
  have hsq : 0 < ppz bs * ppz bs := Nat.mul_pos hppz hppz
  have hlt : blockStart bs (1 + ppz bs) < blockStart bs (blocks bs) :=
    blockStart_lt hppz (by unfold blocks; omega)
  by_cases hz : inode.zones MX3_IIIDZONE = 0
  · have habsent : ∀ j, blockStart bs (1 + ppz bs) ≤ j → j < blockStart bs (blocks bs) →
        ¬ Present bs (walkedBlock bs fs.disk inode) j := by
      intro j hj hj' hpresent
      have hb : 1 + ppz bs ≤ (j - 7) / ppz bs := by
        rw [Nat.le_div_iff_mul_le hppz]
        unfold blockStart at hj
        omega
      have hseven : 7 ≤ blockStart bs (1 + ppz bs) := Nat.le_add_right 7 _
      refine hpresent (by omega) ?_
      unfold walkedBlock
      rw [if_neg (by omega), if_neg (by omega)]
      simp [blockSlot, hz]
    have hend : blockStart bs (1 + ppz bs) + ppz bs * ppz bs * ppz bs = blockStart bs (blocks bs) := by
      unfold blockStart blocks
      ring
    refine Scans.quiet ?_ fun j hj hj' h => habsent j hj hj' h.2
    unfold walkTriplyIndirect
    rw [freshPointer_undisturbed hu hlt, ← hend]
    change (if inode.zones MX3_IIIDZONE ≠ 0 then _ else _) = _
    rw [if_neg (not_not.mpr hz), walkAt_skip]
    intro j hj hj'
    rw [hend] at hj'
    exact zoneUnder_absent (habsent j hj hj')
  · have hstart : blockStart bs (1 + ppz bs) = blockStart bs (1 + ppz bs + 0 * ppz bs) := by
      rw [Nat.zero_mul, Nat.add_zero]
    refine (hstart ▸ covers_walkDoubles hu hz (ppz bs) 0 rfl).congr ?_
    unfold walkTriplyIndirect
    rw [freshPointer_undisturbed hu hlt]
    change (if inode.zones MX3_IIIDZONE ≠ 0 then _ else _) = _
    rw [if_pos hz]
    rfl

theorem covers_walkDirect (hu : Undisturbed target set 7) (n i : ℕ) (hn : n + i = 7) :
    Covers bs fs inode target (walkDirect bs target set n) i 7 := by
  induction n generalizing i with
  | zero =>
    rw [show i = 7 by omega]
    exact Scans.nil rfl
  | succ n ih =>
    have hslot : inode.zones (Fin.ofNat 10 i) = walkedZone bs fs.disk inode i :=
      (zoneUnder_direct (by omega)).symm
    have hpresent : Present bs (walkedBlock bs fs.disk inode) i := fun h => absurd h (by omega)
    have hsingle : Covers bs fs inode target (walkDirectSlot bs target set) i (i + 1) := by
      refine Scans.single (fun hstop => ?_) fun hpass => ?_
      · have ht : target ≤ i := hstop.1
        have hset : set = none := hu.resolve_right fun h => by omega
        subst hset
        unfold walkDirectSlot
        rw [walkAt_i, if_pos ht]
        change Except.error (Stop.found _ (inode.zones (Fin.ofNat 10 i))) = _
        rw [hslot]
        rfl
      · have ht : ¬ target ≤ i := fun h => hpass ⟨h, hpresent⟩
        unfold walkDirectSlot
        rw [walkAt_i, if_neg ht]
        change Except.ok ((walkAt bs fs inode i).pass bs (inode.zones (Fin.ofNat 10 i))) = _
        rw [hslot, walkAt_pass]
    exact Scans.bind (by omega) (by omega) hsingle (ih (i + 1) (by omega))

theorem covers_walkAll (hu : Undisturbed target set (blockStart bs (blocks bs)))
    (hppz : 0 < ppz bs) :
    Covers bs fs inode target (walkAll bs target set) 0 (blockStart bs (blocks bs)) := by
  have hzero : blockStart bs 0 = 7 := by
    unfold blockStart
    omega
  have h1 : blockStart bs 0 ≤ blockStart bs 1 := blockStart_mono bs (by omega)
  have h2 : blockStart bs 1 ≤ blockStart bs (1 + ppz bs) := blockStart_mono bs (by omega)
  have h3 : blockStart bs (1 + ppz bs) ≤ blockStart bs (blocks bs) :=
    blockStart_mono bs (by unfold blocks; omega)
  have hdirect : Covers bs fs inode target (walkDirect bs target set 7) 0 (blockStart bs 0) := by
    rw [hzero]
    exact covers_walkDirect (hu.mono (hzero.symm.le.trans (h1.trans (h2.trans h3)))) 7 0 rfl
  exact Scans.bind (Nat.zero_le _) (h1.trans (h2.trans h3)) hdirect
    (Scans.bind h1 (h2.trans h3) (covers_walkIndirect (hu.mono (h2.trans h3)) hppz)
      (Scans.bind h2 h3 (covers_walkDoublyIndirect (hu.mono h3) hppz)
        (covers_walkTriplyIndirect hu hppz)))

/-- The lookup ends at the first slot it reads from `target` on. -/
theorem zoneWalker_found {j : ℕ} (hj : target ≤ j) (hj' : j < blockStart bs (blocks bs))
    (hp : Present bs (walkedBlock bs fs.disk inode) j)
    (hfirst : ∀ m, target ≤ m → m < j → ¬ Present bs (walkedBlock bs fs.disk inode) m) :
    zoneWalker bs fs inode target none
      = some (walkAt bs fs inode j, some (walkedZone bs fs.disk inode j)) := by
  have hstart : (⟨fs, inode, 0, inode.size.toNat⟩ : Walk) = walkAt bs fs inode 0 := by
    simp [walkAt, remainingAt]
  have hquiet : ∀ m, 0 ≤ m → m < j → ¬ StopsAt bs fs inode target m :=
    fun m _ hm h => hfirst m h.1 hm h.2
  have hall : walkAll bs target none (walkAt bs fs inode 0) = .error (found bs fs inode j) := by
    by_cases hdirect : j < 7
    · have hstops := (covers_walkDirect (Or.inl rfl) 7 0 rfl).stops j (Nat.zero_le j) hdirect
        ⟨hj, hp⟩ hquiet
      unfold walkAll
      rw [hstops]
      rfl
    · have hppz : 0 < ppz bs := by
        by_contra h
        unfold blockStart at hj'
        rw [show ppz bs = 0 by omega] at hj'
        omega
      exact (covers_walkAll (Or.inl rfl) hppz).stops j (Nat.zero_le j) hj' ⟨hj, hp⟩ hquiet
  unfold zoneWalker
  rw [hstart, hall]
  rfl

/-- Without such a slot the lookup falls out of its loops. -/
theorem zoneWalker_none (hppz : 0 < ppz bs)
    (h : ∀ m, target ≤ m → m < blockStart bs (blocks bs) →
      ¬ Present bs (walkedBlock bs fs.disk inode) m) :
    zoneWalker bs fs inode target none = some (walkAt bs fs inode (blockStart bs (blocks bs)), none) := by
  have hstart : (⟨fs, inode, 0, inode.size.toNat⟩ : Walk) = walkAt bs fs inode 0 := by
    simp [walkAt, remainingAt]
  have hall : walkAll bs target none (walkAt bs fs inode 0)
      = .ok (walkAt bs fs inode (blockStart bs (blocks bs))) :=
    (covers_walkAll (Or.inl rfl) hppz).passes fun m _ hm hs => h m hs.1 hm hs.2
  unfold zoneWalker
  rw [hstart, hall]

end Walked

/-! ## What the lookup returns -/

section Lookups

variable {bs : ℕ} {fs : Fs} {inode : Inode} {i : ℕ}

/-- The lookup of file zone `i` agrees with the MINIX3 tree and changes nothing. -/
def LooksUp (bs : ℕ) (fs : Fs) (inode : Inode) (i : ℕ) : Prop :=
  ∃ w, zoneWalker bs fs inode i none = some (w, some (fileZone bs fs.disk inode i)) ∧
    w.remaining = remainingAt bs inode (fileZone bs fs.disk inode) i ∧
    w.fs = fs ∧ w.inode = inode

/-- The first slot the walk reads from `i` on holds the zone of `i`, and the mapped zones the walk
meets below `i` leave the remaining size that those of the tree leave. -/
def LookupMeets (bs : ℕ) (fs : Fs) (inode : Inode) (i : ℕ) : Prop :=
  (∃ j, i ≤ j ∧ j < getFileMaxZones bs ∧ Present bs (walkedBlock bs fs.disk inode) j ∧
    (∀ m, i ≤ m → m < j → ¬ Present bs (walkedBlock bs fs.disk inode) m) ∧
    walkedZone bs fs.disk inode j = fileZone bs fs.disk inode i) ∧
  remainingAt bs inode (walkedZone bs fs.disk inode) i
    = remainingAt bs inode (fileZone bs fs.disk inode) i

theorem getFileMaxZones_eq (hbs : bs ≤ 4096) : getFileMaxZones bs = blockStart bs (blocks bs) := by
  have hppz : ppz bs ≤ 1024 := by
    unfold ppz
    omega
  have hsq : ppz bs * ppz bs ≤ 1024 * 1024 := Nat.mul_le_mul hppz hppz
  have hcube : ppz bs * ppz bs * ppz bs ≤ 1024 * 1024 * 1024 := Nat.mul_le_mul hsq hppz
  unfold getFileMaxZones blockStart blocks
  rw [Nat.mod_eq_of_lt (by omega)]
  ring

theorem remainingAt_absent {addr : Word → ℕ} {block : ℕ → Word} {a b : ℕ} (hab : a ≤ b)
    (h : ∀ j, a ≤ j → j < b → ¬ Present bs block j) :
    remainingAt bs inode (zoneUnder bs fs.disk inode addr block) b
      = remainingAt bs inode (zoneUnder bs fs.disk inode addr block) a :=
  remainingAt_quiet hab fun j hj hj' => zoneUnder_absent (h j hj hj')

/-! An inode with a doubly indirect block and no indirect one, on a device with blocks of 8 bytes:
the indirect range is skipped, and the first slot read is the first one below the doubly indirect
block. -/

def sparseDisk : Mem := store32 (store32 (fun _ => 0) 80 11) 88 5
def sparseFs : Fs := ⟨sparseDisk, 0, 1⟩
def sparseInode : Inode := { Inode.zero with size := 8 }.setZone MX3_IIDZONE 10

/-- A lookup is right exactly when the first slot it reads holds what the tree has at `i`. -/
theorem lookup_iff_meets (hbs : bs ≤ 4096) (hi : i < getFileMaxZones bs) :
    LooksUp bs fs inode i ↔ LookupMeets bs fs inode i := by
  classical
  have hmax := getFileMaxZones_eq hbs
  by_cases hread : ∃ j, i ≤ j ∧ j < getFileMaxZones bs ∧ Present bs (walkedBlock bs fs.disk inode) j
  · obtain ⟨hj, hj', hp⟩ := Nat.find_spec hread
    have hfirst : ∀ m, i ≤ m → m < Nat.find hread → ¬ Present bs (walkedBlock bs fs.disk inode) m :=
      fun m hm hm' hpm => Nat.find_min hread hm' ⟨hm, by omega, hpm⟩
    have hwalk := zoneWalker_found hj (hmax ▸ hj') hp hfirst
    have hremaining : remainingAt bs inode (walkedZone bs fs.disk inode) (Nat.find hread)
        = remainingAt bs inode (walkedZone bs fs.disk inode) i := remainingAt_absent hj hfirst
    constructor
    · rintro ⟨w, hw, hr, -, -⟩
      rw [hwalk] at hw
      obtain ⟨rfl, hz⟩ := Prod.mk.inj (Option.some.inj hw)
      exact ⟨⟨_, hj, hj', hp, hfirst, Option.some.inj hz⟩, hremaining.symm.trans hr⟩
    · rintro ⟨⟨j, hij, hjmax, hpj, hfj, hz⟩, hr⟩
      have hsame : Nat.find hread = j := by
        refine le_antisymm (Nat.find_min' hread ⟨hij, hjmax, hpj⟩) ?_
        by_contra hlt
        exact hfj _ hj (by omega) hp
      rw [hsame] at hwalk hremaining
      exact ⟨_, by rw [hwalk, hz], hremaining.trans hr, rfl, rfl⟩
  · have habsent : ∀ m, i ≤ m → m < blockStart bs (blocks bs) →
        ¬ Present bs (walkedBlock bs fs.disk inode) m :=
      fun m hm hm' hpm => hread ⟨m, hm, hmax ▸ hm', hpm⟩
    have hppz : 0 < ppz bs := by
      by_contra h
      refine habsent i le_rfl (hmax ▸ hi) fun h7 => ?_
      rw [hmax] at hi
      unfold blockStart at hi
      rw [show ppz bs = 0 by omega] at hi
      omega
    constructor
    · rintro ⟨w, hw, -⟩
      rw [zoneWalker_none hppz habsent] at hw
      cases (Prod.mk.inj (Option.some.inj hw)).2
    · rintro ⟨⟨j, hij, hjmax, hpj, -⟩, -⟩
      exact absurd hpj (habsent j hij (hmax ▸ hjmax))

theorem lookup_iff_meets_sparse : 7 < getFileMaxZones 8 ∧
    (LooksUp 8 sparseFs sparseInode 7 ↔ LookupMeets 8 sparseFs sparseInode 7) :=
  ⟨by decide, lookup_iff_meets (by decide) (by decide)⟩

theorem sparse_nodes (n : Node) (hn : n.In 8) :
    nodeZone 8 sparseDisk sparseInode n
      = if n = .doubly then 10 else if n = .block 1 then 11 else if n = .data 9 then 5 else 0 := by
  cases n with
  | data j =>
    have h : ∀ j < 21, fileZone 8 sparseDisk sparseInode j = if j = 9 then 5 else 0 := by decide
    simpa [nodeZone] using h j hn
  | block b =>
    have h : ∀ b < 7, pointerBlock 8 sparseDisk sparseInode b = if b = 1 then 11 else 0 := by decide
    simpa [nodeZone] using h b hn
  | doubly => rfl
  | triply => rfl
  | second l =>
    have h : ∀ l < 2, blockSlot sparseDisk (baddr 8) (sparseInode.zones MX3_IIIDZONE) l = 0 := by
      decide
    simpa [nodeZone] using h l hn

theorem lookup_below_zero_pointer :
    4 ∣ 8 ∧ 8 ≤ 4096 ∧ DistinctZones 8 sparseDisk sparseInode ∧ 7 < getFileMaxZones 8 ∧
      ¬ LooksUp 8 sparseFs sparseInode 7 := by
  refine ⟨by decide, by decide, fun m n hm hn hne he => ?_, by decide, ?_⟩
  · rw [sparse_nodes m hm] at hne he
    rw [sparse_nodes n hn] at he
    split_ifs at hne he <;> simp_all
  · rintro ⟨w, hw, -⟩
    have habsent : ∀ m, 7 ≤ m → m < 9 → ¬ Present 8 (walkedBlock 8 sparseFs.disk sparseInode) m := by
      intro m h7 h9 hp
      have hzero : (m - 7) / ppz 8 = 0 := Nat.div_eq_of_lt (by unfold ppz; omega)
      have := hp h7
      rw [hzero] at this
      exact this (by decide)
    have hp : Present 8 (walkedBlock 8 sparseFs.disk sparseInode) 9 := fun _ => by decide
    have hwalk : zoneWalker 8 sparseFs sparseInode 7 none
        = some (walkAt 8 sparseFs sparseInode 9, some (walkedZone 8 sparseFs.disk sparseInode 9)) :=
      zoneWalker_found (by decide) (by decide) hp habsent
    have hz := (Prod.mk.inj (Option.some.inj (hwalk.symm.trans hw))).2
    revert hz
    decide

/-- The pointer blocks of the indirect and doubly indirect ranges lie where 32 bits reach. -/
def Addressable (bs : ℕ) (disk : Mem) (inode : Inode) : Prop :=
  baddr bs (inode.zones MX3_IIDZONE) < 2 ^ 32 ∧
    ∀ b ≤ ppz bs, baddr bs (pointerBlock bs disk inode b) < 2 ^ 32

theorem baddr32_eq {zone : Word} (h : baddr bs zone < 2 ^ 32) : baddr32 bs zone = baddr bs zone :=
  Nat.mod_eq_of_lt h

theorem blockSlot_addressable {disk : Mem} {zone : Word} (h : baddr bs zone < 2 ^ 32) (s : ℕ) :
    blockSlot disk (baddr32 bs) zone s = blockSlot disk (baddr bs) zone s := by
  unfold blockSlot
  rw [baddr32_eq h]

theorem walkedBlock_eq {disk : Mem} (ha : Addressable bs disk inode) {b : ℕ} (hb : b ≤ ppz bs) :
    walkedBlock bs disk inode b = pointerBlock bs disk inode b := by
  unfold walkedBlock pointerBlock
  split
  · rfl
  · rw [blockSlot_addressable ha.1]

theorem block_of_lt {j : ℕ} (h7 : 7 ≤ j) (hj : j < blockStart bs (1 + ppz bs)) :
    (j - 7) / ppz bs ≤ ppz bs := by
  have hlt : j - 7 < (ppz bs + 1) * ppz bs := by
    unfold blockStart at hj
    rw [Nat.add_comm 1] at hj
    omega
  have hdiv : (j - 7) / ppz bs < ppz bs + 1 := Nat.div_lt_of_lt_mul (Nat.mul_comm _ _ ▸ hlt)
  omega

theorem present_walked {disk : Mem} (ha : Addressable bs disk inode) {j : ℕ}
    (hj : j < blockStart bs (1 + ppz bs)) :
    Present bs (walkedBlock bs disk inode) j ↔ Present bs (pointerBlock bs disk inode) j := by
  unfold Present
  refine imp_congr_right fun h7 => ?_
  rw [walkedBlock_eq ha (block_of_lt h7 hj)]

theorem walkedZone_eq {disk : Mem} (ha : Addressable bs disk inode) {j : ℕ}
    (hj : j < blockStart bs (1 + ppz bs)) :
    walkedZone bs disk inode j = fileZone bs disk inode j := by
  unfold walkedZone fileZone zoneUnder
  split
  · rfl
  · have hb := block_of_lt (by omega) hj
    rw [walkedBlock_eq ha hb, blockSlot_addressable (ha.2 _ hb)]

theorem remainingAt_congr {zone zone' : ℕ → Word} {i : ℕ} (h : ∀ j < i, zone j = zone' j) :
    remainingAt bs inode zone i = remainingAt bs inode zone' i := by
  unfold remainingAt
  rw [Nat.count_eq_card_filter_range, Nat.count_eq_card_filter_range]
  congr 3
  apply Finset.filter_congr
  intro j hj
  rw [h j (Finset.mem_range.mp hj)]

/-- Below the triply indirect range, an index without a zero pointer above it is looked up. -/
theorem zoneWalker_present (ha : Addressable bs fs.disk inode)
    (hi : i < blockStart bs (1 + ppz bs)) (hp : Present bs (pointerBlock bs fs.disk inode) i) :
    zoneWalker bs fs inode i none
      = some (⟨fs, inode, i, remainingAt bs inode (fileZone bs fs.disk inode) i⟩,
        some (fileZone bs fs.disk inode i)) := by
  have hend : blockStart bs (1 + ppz bs) ≤ blockStart bs (blocks bs) :=
    blockStart_mono bs (Nat.le_add_right _ _)
  rw [zoneWalker_found le_rfl (hi.trans_le hend) ((present_walked ha hi).mpr hp)
    fun m hm hm' => absurd hm' (by omega)]
  unfold walkAt
  rw [walkedZone_eq ha hi, remainingAt_congr fun j hj => walkedZone_eq ha (hj.trans hi)]

end Lookups

end Minix3
