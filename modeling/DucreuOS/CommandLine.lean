import DucreuOS.Library.LiveBlocks
import DucreuOS.Strings

/-! # The arguments of a command line

`countargs`, `make_argv` and `free_argv`. A block of the heap has the size that it was allocated
with; a store behind its end, an access to a block that is not live and a second `kfree` have no
result. Every allocation succeeds. -/
namespace CommandLine

open ByteMemory LiveBlocks Words Strings

/-- The blocks by their addresses. The entries of `pointers` are those of an array of `char *`. -/
structure Blocks where
  size : ℕ → ℕ
  chars : ℕ → Mem
  pointers : ℕ → ℕ → ℕ

abbrev Op := Prog ℕ Blocks

def Blocks.contents (d : Blocks) (b : ℕ) : Chars := listed (d.chars b) (d.size b)

namespace Blocks

variable (d : Blocks)

def setSize (b bytes : ℕ) : Blocks := { d with size := Function.update d.size b bytes }

def setEntry (argv i p : ℕ) : Blocks :=
  { d with pointers := Function.update d.pointers argv (Function.update (d.pointers argv) i p) }

def setChars (b : ℕ) (f : Mem) : Blocks := { d with chars := Function.update d.chars b f }

end Blocks

/-- `sizeof(char *)` -/
def pointerSize : ℕ := 8

/-! ## The source -/

section Source

def defined {α : Type} (result : Option α) : Op α := onData fun d => result.map (·, d)

def kmalloc (A : Allocator ℕ) (bytes : ℕ) : Op ℕ := do
  let b ← allocate A
  onData fun d => some (b, d.setSize b bytes)

/-- `argv[i]` lies in the block. -/
def HasEntry (h : Heap ℕ Blocks) (argv i : ℕ) : Prop :=
  argv ∈ h.live ∧ pointerSize * (i + 1) ≤ h.data.size argv

instance (h : Heap ℕ Blocks) (argv i : ℕ) : Decidable (HasEntry h argv i) :=
  inferInstanceAs (Decidable (_ ∧ _))

def storeEntry (argv i p : ℕ) : Op Unit := fun h =>
  if HasEntry h argv i then .ok ((), ⟨h.live, h.data.setEntry argv i p⟩) else .error .stuck

def loadEntry (argv i : ℕ) : Op ℕ := fun h =>
  if HasEntry h argv i then .ok (h.data.pointers argv i, h) else .error .stuck

/-- `msstrcpy` to a block -/
def copyWord (p : ℕ) (src : Chars) : Op Unit := fun h =>
  match if p ∈ h.live then msstrcpy (h.data.contents p) src else none with
  | some dest => .ok ((), ⟨h.live, h.data.setChars p fun o => dest.getD o 0⟩)
  | none => .error .stuck

/-- `STATE_IN_WORD` and `STATE_IN_SPACE` -/
inductive Reading
  | inWord
  | inSpace

/-- The loop of `countargs`. -/
def countFrom : Chars → Reading → ℕ → Option ℕ
  | [], _, _ => none
  | c :: cmd, state, nargs =>
    if c = 0 then some nargs
    else match state with
      | .inSpace =>
        if c = space then countFrom cmd .inSpace nargs else countFrom cmd .inWord (nargs + 1)
      | .inWord =>
        if c = space then countFrom cmd .inSpace nargs else countFrom cmd .inWord nargs

def countargs (cmd : Chars) : Option ℕ := countFrom cmd .inSpace 0

variable (A : Allocator ℕ)

/-- The statements of `make_argv` for the word at `cmd`. -/
def addWord (argv which_arg : ℕ) (cmd : Chars) : Op Unit := do
  let length ← defined (msstrlen cmd)
  let block ← kmalloc A (length + 1)
  storeEntry argv which_arg block
  let arg ← loadEntry argv which_arg
  copyWord arg cmd

/-- The loop of `make_argv`; it ends with `which_arg`. -/
def fillFrom (argv : ℕ) : Chars → Reading → ℕ → Op ℕ
  | [], _, _ => defined none
  | c :: cmd, state, which_arg =>
    if c = 0 then pure which_arg
    else match state with
      | .inSpace =>
        if c = space then fillFrom argv cmd .inSpace which_arg
        else do
          addWord A argv which_arg (c :: cmd)
          fillFrom argv cmd .inWord (which_arg + 1)
      | .inWord =>
        if c = space then fillFrom argv cmd .inSpace which_arg
        else fillFrom argv cmd .inWord which_arg

def makeArgv (cmd : Chars) : Op ℕ := do
  let nargs ← defined (countargs cmd)
  let argv ← kmalloc A (pointerSize * nargs)
  let _which_arg ← fillFrom A argv cmd .inSpace 0
  -- another count is reported
  let _ ← defined (countargs cmd)
  pure argv

/-- `n` rounds of the loop of `free_argv`, from `i` on. -/
def freeFrom (argv : ℕ) : (n i : ℕ) → Op Unit
  | 0, _ => pure ()
  | n + 1, i => do
    let arg ← loadEntry argv i
    release arg
    freeFrom argv n (i + 1)

def freeArgv (argv nargs : ℕ) : Op Unit := do
  freeFrom argv nargs 0
  release argv

end Source

/-! ## What the calls are to do -/

/-- From index `i` on the array points to blocks `ps`, each with a word and its terminator. -/
inductive Entries (d : Blocks) (argv : ℕ) : ℕ → List (List Byte) → List ℕ → Prop where
  | nil (i) : Entries d argv i [] []
  | cons {i w ws p ps} : d.pointers argv i = p → d.size p = w.length + 1 →
      IsString (d.contents p) w → Entries d argv (i + 1) ws ps → Entries d argv i (w :: ws) (p :: ps)

/-- The words have blocks of their own, and one more is for the array, which has no other entry. -/
structure ArgVector (h h' : Heap ℕ Blocks) (argv : ℕ) (ws : List (List Byte)) (ps : List ℕ) : Prop where
  entries : Entries h'.data argv 0 ws ps
  size : h'.data.size argv = pointerSize * ws.length
  distinct : (argv :: ps).Nodup
  fresh : ∀ b ∈ argv :: ps, b ∉ h.live
  live : h'.live = h.live ∪ (argv :: ps).toFinset

variable {A : Allocator ℕ} {h h' : Heap ℕ Blocks} {cmd : Chars} {s w : List Byte} {argv p i k : ℕ}
  {ws : List (List Byte)} {ps : List ℕ} {state : Reading}

/-- The words that the loops still come to. -/
def pending : Reading → List Byte → List (List Byte)
  | .inSpace, s => words isSpace s
  | .inWord, s => words isSpace (behind isSpace s)

theorem pending_nil : pending state [] = [] := by cases state <;> rfl

theorem pending_space {c : Byte} (h : c = space) : pending state (c :: s) = words isSpace s := by
  have hc := isSpace_iff.2 h
  cases state with
  | inSpace => exact words_separator hc
  | inWord =>
    change words isSpace (behind isSpace (c :: s)) = _
    rw [behind_separator hc, words_separator hc]

theorem pending_letter {c : Byte} (h : c ≠ space) :
    pending .inWord (c :: s) = pending .inWord s ∧
      pending .inSpace (c :: s) = front isSpace (c :: s) :: pending .inWord s := by
  have hc : isSpace c = false := decide_eq_false h
  refine ⟨by rw [pending, behind_letter hc, pending], ?_⟩
  rw [pending, words_letter hc, front_letter hc, pending]

/-! ## Counting -/

theorem countFrom_eq (hs : IsString cmd s) (nargs : ℕ) :
    countFrom cmd state nargs = some (nargs + (pending state s).length) := by
  induction s generalizing cmd state nargs with
  | nil =>
    obtain ⟨-, t, rfl⟩ := hs
    rw [pending_nil]
    rfl
  | cons c s ih =>
    obtain ⟨hnul, t, rfl⟩ := hs
    rw [List.mem_cons, not_or] at hnul
    have hrest := isString_append hnul.2 t
    have hc0 : c ≠ 0 := Ne.symm hnul.1
    by_cases hc : c = space
    · rw [pending_space hc]
      cases state <;> simp only [List.cons_append, countFrom, if_neg hc0, if_pos hc] <;>
        exact ih hrest nargs
    · obtain ⟨hword, hnew⟩ := pending_letter (s := s) hc
      cases state with
      | inWord =>
        simp only [List.cons_append, countFrom, if_neg hc0, if_neg hc]
        rw [hword]
        exact ih hrest nargs
      | inSpace =>
        simp only [List.cons_append, countFrom, if_neg hc0, if_neg hc]
        rw [hnew, List.length_cons, ih hrest (nargs + 1), Nat.add_right_comm, Nat.add_assoc]

theorem countargs_eq (hs : IsString cmd s) : countargs cmd = some (words isSpace s).length := by
  rw [countargs, countFrom_eq hs, Nat.zero_add, pending]

/-! ## Filling -/

theorem listed_getD {l : List Byte} {n : ℕ} (hn : l.length = n) :
    listed (fun o => l.getD o 0) n = l := by
  subst hn
  apply List.ext_getElem (length_listed _ _)
  intro o ho ho'
  rw [← List.getD_eq_getElem _ 0 ho, getD_listed _ ho', List.getD_eq_getElem]

theorem defined_run {α : Type} {a : α} {result : Option α} (hr : result = some a)
    (h : Heap ℕ Blocks) : defined result h = .ok (a, h) := by
  subst hr
  rfl

theorem kmalloc_run (A : Allocator ℕ) (bytes : ℕ) (h : Heap ℕ Blocks) :
    kmalloc A bytes h = .ok (A.pick h.live, ⟨insert (A.pick h.live) h.live,
      h.data.setSize (A.pick h.live) bytes⟩) := rfl

/-- Blocks that live keep their bytes, and the array keeps its first entries. -/
structure Kept (h h' : Heap ℕ Blocks) (argv k : ℕ) : Prop where
  size (b : ℕ) : b ∈ h.live → h'.data.size b = h.data.size b
  chars (b : ℕ) : b ∈ h.live → h'.data.chars b = h.data.chars b
  pointers (i : ℕ) : i < k → h'.data.pointers argv i = h.data.pointers argv i

theorem Kept.trans {h'' : Heap ℕ Blocks} {l : ℕ} (hk : Kept h h' argv k) (hl : Kept h' h'' argv l)
    (hlive : h.live ⊆ h'.live) (hkl : k ≤ l) : Kept h h'' argv k where
  size b hb := (hl.size b (hlive hb)).trans (hk.size b hb)
  chars b hb := (hl.chars b (hlive hb)).trans (hk.chars b hb)
  pointers i hi := (hl.pointers i (hi.trans_le hkl)).trans (hk.pointers i hi)

theorem Kept.contents {b : ℕ} (hk : Kept h h' argv k) (hb : b ∈ h.live) :
    h'.data.contents b = h.data.contents b := by
  rw [Blocks.contents, hk.size b hb, hk.chars b hb, Blocks.contents]

/-- One word has been added as entry `k`, in the block `p`. -/
structure Added (h h' : Heap ℕ Blocks) (argv k : ℕ) (w : List Byte) (p : ℕ) : Prop where
  fresh : p ∉ h.live
  live : h'.live = insert p h.live
  pointer : h'.data.pointers argv k = p
  size : h'.data.size p = w.length + 1
  word : IsString (h'.data.contents p) w
  kept : Kept h h' argv k

theorem storeEntry_run (he : HasEntry h argv i) (p : ℕ) :
    storeEntry argv i p h = .ok ((), ⟨h.live, h.data.setEntry argv i p⟩) := if_pos he

theorem loadEntry_run (he : HasEntry h argv i) :
    loadEntry argv i h = .ok (h.data.pointers argv i, h) := if_pos he

/-- The block has room for the word and its terminator, and for nothing else. -/
theorem copyWord_run (hs : IsString cmd s) (hp : p ∈ h.live)
    (hsize : h.data.size p = (front isSpace s).length + 1) :
    copyWord p cmd h =
      .ok ((), ⟨h.live, h.data.setChars p fun o => (front isSpace s ++ [0]).getD o 0⟩) := by
  have hlen : (h.data.contents p).length = (front isSpace s).length + 1 := by
    rw [Blocks.contents, length_listed, hsize]
  have hcopy := msstrcpy_eq hs (show (front isSpace s).length < (h.data.contents p).length by omega)
  rw [List.drop_eq_nil_of_le hlen.le] at hcopy
  rw [copyWord, if_pos hp, hcopy]

theorem addWord_adds (hs : IsString cmd s) (hargv : HasEntry h argv k) :
    ∃ h' p, addWord A argv k cmd h = .ok ((), h') ∧ Added h h' argv k (front isSpace s) p := by
  obtain ⟨p, hpick⟩ : ∃ p, p = A.pick h.live := ⟨_, rfl⟩
  have hfresh : p ∉ h.live := hpick ▸ A.pick_fresh h.live
  have hne : argv ≠ p := fun heq => hfresh (heq ▸ hargv.1)
  have hold {b : ℕ} (hb : b ∈ h.live) : b ≠ p := fun heq => hfresh (heq ▸ hb)
  let w := front isSpace s
  let d₁ := h.data.setSize p (w.length + 1)
  let d₂ := d₁.setEntry argv k p
  have hentry : HasEntry ⟨insert p h.live, d₁⟩ argv k :=
    ⟨Finset.mem_insert_of_mem hargv.1, hargv.2.trans_eq (Function.update_of_ne hne _ _).symm⟩
  have hload : d₂.pointers argv k = p := by
    change Function.update d₁.pointers argv (Function.update (d₁.pointers argv) k p) argv k = p
    rw [Function.update_self, Function.update_self]
  have hsize : d₂.size p = w.length + 1 := Function.update_self _ _ _
  have hcopy := copyWord_run (h := ⟨insert p h.live, d₂⟩) hs (Finset.mem_insert_self p _) hsize
  refine ⟨⟨insert p h.live, d₂.setChars p fun o => (w ++ [0]).getD o 0⟩, p, ?_, hfresh, rfl, hload,
    hsize, ?_, ?_⟩
  · have hkmalloc := kmalloc_run A (w.length + 1) h
    rw [← hpick] at hkmalloc
    have hloaded := loadEntry_run (h := ⟨insert p h.live, d₂⟩) hentry
    rw [show (⟨insert p h.live, d₂⟩ : Heap ℕ Blocks).data.pointers argv k = p from hload] at hloaded
    rw [addWord, bind_run (defined_run (msstrlen_eq hs) h), bind_run hkmalloc,
      bind_run (storeEntry_run hentry p), bind_run hloaded, hcopy]
  · have hbytes : (d₂.setChars p fun o => (w ++ [0]).getD o 0).contents p = w ++ 0 :: [] := by
      change listed (Function.update d₂.chars p _ p) (d₂.size p) = _
      rw [Function.update_self, hsize, listed_getD (by simp)]
    change IsString ((d₂.setChars p fun o => (w ++ [0]).getD o 0).contents p) w
    rw [hbytes]
    exact isString_append (fun h0 => hs.no_nul (front_subset h0)) []
  · constructor
    · exact fun b hb => Function.update_of_ne (hold hb) _ _
    · exact fun b hb => Function.update_of_ne (hold hb) _ _
    · intro i hi
      change Function.update d₁.pointers argv (Function.update (d₁.pointers argv) k p) argv i = _
      rw [Function.update_self, Function.update_of_ne hi.ne]
      rfl

theorem Kept.refl (h : Heap ℕ Blocks) (argv k : ℕ) : Kept h h argv k :=
  ⟨fun _ _ => rfl, fun _ _ => rfl, fun _ _ => rfl⟩

/-- The words have been added from entry `k` on, in the blocks `ps`. -/
structure Extended (h h' : Heap ℕ Blocks) (argv k : ℕ) (ws : List (List Byte)) (ps : List ℕ) :
    Prop where
  entries : Entries h'.data argv k ws ps
  distinct : ps.Nodup
  fresh : ∀ p ∈ ps, p ∉ h.live
  live : h'.live = h.live ∪ ps.toFinset
  kept : Kept h h' argv k

theorem Extended.nil (h : Heap ℕ Blocks) (argv k : ℕ) : Extended h h argv k [] [] :=
  ⟨.nil k, List.nodup_nil, by simp, by simp, .refl h argv k⟩

/-- The entry that has been added first stays. -/
theorem Added.cons {h'' : Heap ℕ Blocks} (ha : Added h h' argv k w p)
    (he : Extended h' h'' argv (k + 1) ws ps) : Extended h h'' argv k (w :: ws) (p :: ps) := by
  have hp : p ∈ h'.live := ha.live ▸ Finset.mem_insert_self p _
  have hsub : h.live ⊆ h'.live := ha.live ▸ Finset.subset_insert p _
  constructor
  · apply Entries.cons ((he.kept.pointers k (Nat.lt_succ_self k)).trans ha.pointer)
    · rw [he.kept.size p hp, ha.size]
    · rw [he.kept.contents hp]
      exact ha.word
    · exact he.entries
  · exact List.nodup_cons.2 ⟨fun hmem => he.fresh p hmem hp, he.distinct⟩
  · rw [List.forall_mem_cons]
    exact ⟨ha.fresh, fun q hq hlive => he.fresh q hq (hsub hlive)⟩
  · rw [he.live, ha.live, List.toFinset_cons, Finset.insert_union, Finset.union_insert]
  · exact ha.kept.trans he.kept hsub (Nat.le_succ k)

/-- The block of the array has entries up to `n`. -/
theorem hasEntry_of (hlive : argv ∈ h.live) {n : ℕ} (hsize : h.data.size argv = pointerSize * n)
    (hi : i < n) : HasEntry h argv i := by
  refine ⟨hlive, ?_⟩
  rw [hsize]
  exact Nat.mul_le_mul_left _ hi

theorem fillFrom_extends (hs : IsString cmd s) (hlive : argv ∈ h.live)
    (hsize : h.data.size argv = pointerSize * (k + (pending state s).length)) :
    ∃ h' ps, fillFrom A argv cmd state k h = .ok (k + (pending state s).length, h') ∧
      Extended h h' argv k (pending state s) ps := by
  induction s generalizing cmd state k h with
  | nil =>
    obtain ⟨-, t, rfl⟩ := hs
    rw [pending_nil]
    exact ⟨h, [], rfl, .nil h argv k⟩
  | cons c s ih =>
    have hstring := hs
    obtain ⟨hnul, t, rfl⟩ := hs
    rw [List.mem_cons, not_or] at hnul
    have hrest := isString_append hnul.2 t
    have hc0 : c ≠ 0 := Ne.symm hnul.1
    by_cases hc : c = space
    · rw [pending_space hc] at hsize ⊢
      cases state <;> simp only [List.cons_append, fillFrom, if_neg hc0, if_pos hc] <;>
        exact ih hrest hlive hsize
    · obtain ⟨hword, hnew⟩ := pending_letter (s := s) hc
      cases state with
      | inWord =>
        simp only [List.cons_append, fillFrom, if_neg hc0, if_neg hc]
        rw [hword] at hsize ⊢
        exact ih hrest hlive hsize
      | inSpace =>
        simp only [List.cons_append, fillFrom, if_neg hc0, if_neg hc]
        rw [hnew, List.length_cons] at hsize ⊢
        have hentry : HasEntry h argv k := hasEntry_of hlive hsize (by omega)
        obtain ⟨h₁, p, hadd, ha⟩ := addWord_adds hstring hentry
        have hlive₁ : argv ∈ h₁.live := ha.live ▸ Finset.mem_insert_of_mem hlive
        have hsize₁ : h₁.data.size argv = pointerSize * (k + 1 + (pending .inWord s).length) := by
          rw [ha.kept.size argv hlive, hsize, Nat.add_right_comm, Nat.add_assoc]
        obtain ⟨h', ps, hfill, he⟩ := ih hrest hlive₁ hsize₁
        refine ⟨h', p :: ps, ?_, ha.cons he⟩
        rw [List.cons_append] at hadd
        rw [bind_run hadd, hfill, Nat.add_right_comm, Nat.add_assoc]

theorem makeArgv_fills (hs : IsString cmd s) (h : Heap ℕ Blocks) :
    ∃ argv h' ps, makeArgv A cmd h = .ok (argv, h') ∧
      ArgVector h h' argv (words isSpace s) ps := by
  have hcount := countargs_eq hs
  obtain ⟨argv, hpick⟩ : ∃ argv, argv = A.pick h.live := ⟨_, rfl⟩
  have hfresh : argv ∉ h.live := hpick ▸ A.pick_fresh h.live
  let bytes := pointerSize * (words isSpace s).length
  let h₁ : Heap ℕ Blocks := ⟨insert argv h.live, h.data.setSize argv bytes⟩
  have hlive : argv ∈ h₁.live := Finset.mem_insert_self argv _
  have hsize : h₁.data.size argv = bytes := Function.update_self _ _ _
  have hroom : h₁.data.size argv = pointerSize * (0 + (pending .inSpace s).length) := by
    rw [Nat.zero_add]
    exact hsize
  obtain ⟨h', ps, hfill, he⟩ := fillFrom_extends (A := A) hs hlive hroom
  refine ⟨argv, h', ps, ?_, ?_⟩
  · have hkmalloc := kmalloc_run A bytes h
    rw [← hpick] at hkmalloc
    rw [makeArgv, bind_run (defined_run hcount h), bind_run hkmalloc, bind_run hfill,
      bind_run (defined_run hcount h')]
    rfl
  · constructor
    · exact he.entries
    · rw [he.kept.size argv hlive, hsize]
    · exact List.nodup_cons.2 ⟨fun hmem => he.fresh argv hmem hlive, he.distinct⟩
    · rw [List.forall_mem_cons]
      exact ⟨hfresh, fun p hp hmem => he.fresh p hp (Finset.mem_insert_of_mem hmem)⟩
    · rw [he.live, List.toFinset_cons, Finset.insert_union, Finset.union_insert]

/-! ## Freeing -/

theorem release_run {b : ℕ} (hb : b ∈ h.live) :
    release b h = .ok ((), ⟨h.live.erase b, h.data⟩) := if_pos hb

theorem freeFrom_frees {n : ℕ} (he : Entries h.data argv i ws ps) (hd : ps.Nodup)
    (hlive : ∀ p ∈ ps, p ∈ h.live) (hargv : argv ∈ h.live) (hnot : argv ∉ ps)
    (hsize : h.data.size argv = pointerSize * n) (hn : i + ws.length ≤ n) :
    freeFrom argv ws.length i h = .ok ((), ⟨h.live \ ps.toFinset, h.data⟩) := by
  induction ws generalizing i ps h with
  | nil =>
    cases he
    rw [List.toFinset_nil, Finset.sdiff_empty]
    rfl
  | cons w ws ih =>
    cases he with
    | @cons _ _ _ p ps hp _ _ hrest =>
      rw [List.nodup_cons] at hd
      rw [List.forall_mem_cons] at hlive
      rw [List.mem_cons, not_or] at hnot
      rw [List.length_cons] at hn ⊢
      have hload := loadEntry_run (hasEntry_of hargv hsize (show i < n by omega))
      rw [hp] at hload
      have hleft := ih (h := ⟨h.live.erase p, h.data⟩) hrest hd.2
        (fun q hq => Finset.mem_erase.2 ⟨fun heq => hd.1 (heq ▸ hq), hlive.2 q hq⟩)
        (Finset.mem_erase.2 ⟨hnot.1, hargv⟩) hnot.2 hsize (by omega)
      rw [freeFrom, bind_run hload, bind_run (release_run hlive.1), hleft, List.toFinset_cons,
        Finset.sdiff_insert, Finset.erase_sdiff_comm]

theorem ArgVector.freed (hv : ArgVector h h' argv ws ps) :
    freeArgv argv ws.length h' = .ok ((), ⟨h.live, h'.data⟩) := by
  have hd := List.nodup_cons.1 hv.distinct
  have hmem (b : ℕ) (hb : b ∈ argv :: ps) : b ∈ h'.live :=
    hv.live ▸ Finset.mem_union_right _ (List.mem_toFinset.2 hb)
  have hfree := freeFrom_frees hv.entries hd.2 (fun p hp => hmem p (List.mem_cons_of_mem _ hp))
    (hmem argv List.mem_cons_self) hd.1 hv.size (Nat.zero_add _).le
  have hargv : argv ∈ h'.live \ ps.toFinset := Finset.mem_sdiff.2
    ⟨hmem argv List.mem_cons_self, fun hps => hd.1 (List.mem_toFinset.1 hps)⟩
  have hleft : (h'.live \ ps.toFinset).erase argv = h.live := by
    rw [← Finset.sdiff_insert, ← List.toFinset_cons, hv.live, Finset.union_sdiff_right]
    exact Finset.sdiff_eq_self_of_disjoint (Finset.disjoint_right.2 fun b hb =>
      hv.fresh b (List.mem_toFinset.1 hb))
  rw [freeArgv, bind_run hfree, release_run hargv, hleft]

/-- Every command line: as many entries as `countargs` counts, each a word in a block of its length
and 1, and `free_argv` releases every block of them and the array once. -/
theorem arguments_filled_and_freed (A : Allocator ℕ) (cmd : Chars) (s : List Byte)
    (hs : IsString cmd s) (h : Heap ℕ Blocks) :
    ∃ nargs argv h' ps, countargs cmd = some nargs ∧ nargs = (words isSpace s).length ∧
      makeArgv A cmd h = .ok (argv, h') ∧ ArgVector h h' argv (words isSpace s) ps ∧
      freeArgv argv nargs h' = .ok ((), ⟨h.live, h'.data⟩) := by
  obtain ⟨argv, h', ps, hrun, hv⟩ := makeArgv_fills (A := A) hs h
  exact ⟨_, argv, h', ps, countargs_eq hs, rfl, hrun, hv, hv.freed⟩

/-- The first address behind the live blocks. -/
def noBlocks : Heap ℕ Blocks := ⟨∅, ⟨fun _ => 0, fun _ _ => 0, fun _ _ => 0⟩⟩

/-- `" cd  f"` -/
def cdLine : List Byte := [0x20, 0x63, 0x64, 0x20, 0x20, 0x66]

theorem arguments_filled_and_freed_cd : ∃ argv h' ps,
    makeArgv nextBlock (cdLine ++ [0]) noBlocks = .ok (argv, h') ∧
      ArgVector noBlocks h' argv [[0x63, 0x64], [0x66]] ps ∧
      freeArgv argv 2 h' = .ok ((), ⟨∅, h'.data⟩) := by
  have hs : IsString (cdLine ++ [0]) cdLine := isString_append (by decide) []
  have hwords : words isSpace cdLine = [[0x63, 0x64], [0x66]] := by decide
  obtain ⟨nargs, argv, h', ps, -, hcount, hrun, hv, hfree⟩ :=
    arguments_filled_and_freed nextBlock (cdLine ++ [0]) cdLine hs noBlocks
  rw [hwords] at hcount hv
  subst hcount
  exact ⟨argv, h', ps, hrun, hv, hfree⟩

end CommandLine
